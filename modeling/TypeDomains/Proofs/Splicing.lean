import TypeDomains.Proofs.Evaluation
import TypeDomains.Proofs.Forms
import TypeDomains.Proofs.Places
import TypeDomains.Proofs.Reachability
import TypeDomains.Proofs.ValueLocations

/-!
# Splicing

Where the statements of an included file end up: no statement is lost, doubled or moved by an
include, and what an include adds stands together, in the place of the form that asks for it
(`ofFile_splices`).
-/

namespace TypeDomains

def Statement.standsIn (x : Statement) (p : Place) : Bool :=
  x.location.file = some p.path.text

/-- The statement that a form makes without looking at other files. -/
def PlacedForm.own? (f : PlacedForm) : Option Statement :=
  match Form.ofSExpr f.form with
  | .ok (.statement x) => some x
  | _ => none

/-- The statements that the forms make themselves, in order. -/
def PlacedForm.own (fs : List PlacedForm) : List Statement := fs.filterMap own?

namespace PlacedForm

variable {f : PlacedForm} {fs gs : List PlacedForm} {x : Statement}

@[simp]
theorem own_append : own (fs ++ gs) = own fs ++ own gs := List.filterMap_append

theorem own_subset (h : fs ⊆ gs) : own fs ⊆ own gs := List.filterMap_subset own? h

theorem own_cons_of_statement (h : Form.ofSExpr f.form = .ok (.statement x)) :
    own (f :: fs) = x :: own fs := by
  simp [own, own?, h]

theorem own_cons_of_includes {s : Sources} {p : Place} (h : s.Includes f p) :
    own (f :: fs) = own fs := by
  obtain ⟨literal, l, hf, -⟩ := h
  simp [own, own?, hf]

theorem exists_of_mem_own (h : x ∈ own fs) : ∃ f ∈ fs, x.location = f.form.location := by
  obtain ⟨f, hf, hx⟩ := List.mem_filterMap.1 h
  unfold own? at hx
  split at hx
  · rename_i y hy
    cases hx
    exact ⟨f, hf, Form.location_of_statement hy⟩
  · simp at hx

end PlacedForm

namespace Sources

open PlacedForm

variable {s : Sources} {seen : List Route} {f : PlacedForm} {fs gs : List PlacedForm}
  {p q : Place} {l : Location} {x : Statement} {ss : List Statement} {ps : List Place}

/-! ## Files read on the way -/

theorem Gives.reads (h : s.Gives seen fs ss ps) :
    s.Reads seen ps (Place.routes ps ++ seen) := by
  obtain ⟨-, hps⟩ := expand_of_gives h
  have := expand_reads s seen fs
  rw [hps] at this
  rwa [← this.seen_eq]

theorem Gives.proper (h : s.Gives seen fs ss ps) : ∀ p ∈ ps, p.Proper := by
  induction h with
  | done => simp
  | statement _ _ ih => exact ih
  | again _ _ _ ih => exact ih
  | file hp _ _ _ ih => exact List.forall_mem_cons.2 ⟨hp.proper, ih⟩

theorem file_of_forms (h : s.forms p l = .ok gs) :
    ∀ g ∈ gs, g.form.location.file = some p.path.text := by
  obtain ⟨text, values, -, hvs, rfl⟩ := forms_ok.1 h
  intro g hg
  obtain ⟨v, hv, rfl⟩ := List.mem_map.1 hg
  exact SExpr.file_of_mem_preorder hvs v (List.mem_flatMap.2 ⟨v, hv, v.mem_preorder_self⟩)

theorem standsIn_of_mem_own (h : s.forms p l = .ok gs) (hx : x ∈ own gs) : x.standsIn p := by
  obtain ⟨g, hg, hl⟩ := exists_of_mem_own hx
  simp [Statement.standsIn, hl, file_of_forms h g hg]

theorem Gives.forms_of_mem (h : s.Gives seen fs ss ps) (hp : p ∈ ps) :
    ∃ l gs, s.forms p l = .ok gs := by
  induction h with
  | done => simp at hp
  | statement _ _ ih => exact ih hp
  | again _ _ _ ih => exact ih hp
  | file _ _ hforms _ ih =>
    rcases List.mem_cons.1 hp with rfl | hp
    · exact ⟨_, _, hforms⟩
    · exact ih hp

/-- Nothing is passed over: a form is a statement or leads to a file. -/
theorem Gives.statement_or_includes (h : s.Gives seen fs ss ps) :
    ∀ f ∈ fs, (∃ x, Form.ofSExpr f.form = .ok (.statement x)) ∨ ∃ p, s.Includes f p := by
  induction h with
  | done => simp
  | statement hf _ ih => exact List.forall_mem_cons.2 ⟨.inl ⟨_, hf⟩, ih⟩
  | again hp _ _ ih => exact List.forall_mem_cons.2 ⟨.inr ⟨_, hp⟩, ih⟩
  | file hp _ _ _ ih =>
    refine List.forall_mem_cons.2 ⟨.inr ⟨_, hp⟩, ?_⟩
    intro f hf
    exact ih f (List.mem_append_right _ hf)

/-! ## Statements by file -/

/-- Each statement is one of the forms' own or stands in a file that was read. -/
theorem Gives.own_or_read (h : s.Gives seen fs ss ps) (hx : x ∈ ss) :
    x ∈ own fs ∨ ∃ p ∈ ps, x.standsIn p := by
  induction h with
  | done => simp at hx
  | statement hf _ ih =>
    rw [own_cons_of_statement hf]
    rcases List.mem_cons.1 hx with rfl | hx
    · exact .inl List.mem_cons_self
    · exact (ih hx).imp_left (List.mem_cons_of_mem _)
  | again hp _ _ ih =>
    rw [own_cons_of_includes hp]
    exact ih hx
  | file hp _ hforms _ ih =>
    rw [own_cons_of_includes hp]
    rcases ih hx with hown | ⟨q, hq, hxq⟩
    · rw [own_append, List.mem_append] at hown
      rcases hown with hown | hown
      · exact .inr ⟨_, List.mem_cons_self, standsIn_of_mem_own hforms hown⟩
      · exact .inl hown
    · exact .inr ⟨q, List.mem_cons_of_mem _ hq, hxq⟩

theorem eq_of_standsIn (hp : p.Proper) (hq : q.Proper) (hxp : x.standsIn p)
    (hxq : x.standsIn q) : p = q := by
  simp only [Statement.standsIn, decide_eq_true_eq] at hxp hxq
  rw [hxp] at hxq
  exact hp.path_injective hq (Option.some.inj hxq)

theorem filter_own_of_forms (h : s.forms p l = .ok gs) : (own gs).filter (·.standsIn p) = own gs :=
  List.filter_eq_self.2 fun _ hx => standsIn_of_mem_own h hx

theorem filter_own_elsewhere (h : s.forms q l = .ok gs) (hp : p.Proper) (hq : q.Proper)
    (hpq : p ≠ q) : (own gs).filter (·.standsIn p) = [] :=
  List.filter_eq_nil_iff.2 fun _ hx hxp =>
    hpq (eq_of_standsIn hp hq hxp (standsIn_of_mem_own h hx))

/-- A file that is not read adds nothing to what the forms say themselves. -/
theorem Gives.filter_of_unread (h : s.Gives seen fs ss ps) (hp : p.Proper) (unread : p ∉ ps) :
    ss.filter (·.standsIn p) = (own fs).filter (·.standsIn p) := by
  induction h with
  | done => rfl
  | statement hf _ ih =>
    rw [own_cons_of_statement hf, List.filter_cons, List.filter_cons, ih unread]
  | again hq _ _ ih => rw [own_cons_of_includes hq, ih unread]
  | file hq _ hforms _ ih =>
    obtain ⟨hpq, unread⟩ := not_or.1 (List.mem_cons.not.1 unread)
    rw [own_cons_of_includes hq, ih unread, own_append, List.filter_append,
      filter_own_elsewhere hforms hp hq.proper hpq, List.nil_append]

/-- Some of a file's own forms add what they say themselves, unless the file is read once more. -/
theorem Gives.filter_own (h : s.Gives seen fs ss ps) (hp : p.Proper) (unread : p ∉ ps)
    (hgs : s.forms p l = .ok gs) (sub : fs ⊆ gs) : ss.filter (·.standsIn p) = own fs := by
  rw [h.filter_of_unread hp unread, List.filter_eq_self]
  intro x hx
  exact standsIn_of_mem_own hgs (own_subset sub hx)

/-- A file that is read adds what it says itself, unless the forms stand in it. -/
theorem Gives.filter_of_read (h : s.Gives seen fs ss ps) (hp : p ∈ ps)
    (hgs : s.forms p l = .ok gs) (outside : (own fs).filter (·.standsIn p) = []) :
    ss.filter (·.standsIn p) = own gs := by
  have hproper := h.proper p hp
  induction h with
  | done => simp at hp
  | statement hf _ ih =>
    rw [own_cons_of_statement hf, List.filter_cons] at outside
    split at outside
    · simp at outside
    · rename_i hx
      rw [List.filter_cons, if_neg hx]
      exact ih hp outside
  | again hq _ _ ih =>
    rw [own_cons_of_includes hq] at outside
    exact ih hp outside
  | @file seen f q m fs gs' ss ps hq _ hforms rest ih =>
    rw [own_cons_of_includes hq] at outside
    by_cases hpq : p = q
    · subst hpq
      obtain rfl := forms_unique hgs hforms
      have unread : p ∉ ps := fun hps => rest.reads.new p hps List.mem_cons_self
      rw [rest.filter_of_unread hproper unread, own_append, List.filter_append, outside,
        filter_own_of_forms hgs, List.append_nil]
    · have hps : p ∈ ps := (List.mem_cons.1 hp).resolve_left hpq
      refine ih hps ?_
      rw [own_append, List.filter_append, outside, List.append_nil,
        filter_own_elsewhere hforms hproper hq.proper hpq]

/-! ## Blocks -/

/-- A row of forms is expanded one part after the other. -/
theorem Gives.split (h : s.Gives seen (fs ++ gs) ss ps) :
    ∃ ss₁ ss₂ ps₁ ps₂, ss = ss₁ ++ ss₂ ∧ ps = ps₁ ++ ps₂ ∧ s.Gives seen fs ss₁ ps₁ ∧
      s.Gives (Place.routes ps₁ ++ seen) gs ss₂ ps₂ := by
  generalize hall : fs ++ gs = all at h
  induction h generalizing fs with
  | done =>
    obtain ⟨rfl, rfl⟩ := List.append_eq_nil_iff.1 hall
    exact ⟨[], [], [], [], rfl, rfl, .done, .done⟩
  | @statement seen f x rest ss ps hf h ih =>
    cases fs with
    | nil =>
      subst hall
      exact ⟨[], x :: ss, [], ps, rfl, rfl, .done, .statement hf h⟩
    | cons g fs =>
      obtain ⟨rfl, tail⟩ := List.cons.inj hall
      obtain ⟨ss₁, ss₂, ps₁, ps₂, rfl, rfl, h₁, h₂⟩ := ih tail
      exact ⟨x :: ss₁, ss₂, ps₁, ps₂, rfl, rfl, .statement hf h₁, h₂⟩
  | @again seen f p rest ss ps hp hseen h ih =>
    cases fs with
    | nil =>
      subst hall
      exact ⟨[], ss, [], ps, rfl, rfl, .done, .again hp hseen h⟩
    | cons g fs =>
      obtain ⟨rfl, tail⟩ := List.cons.inj hall
      obtain ⟨ss₁, ss₂, ps₁, ps₂, rfl, rfl, h₁, h₂⟩ := ih tail
      exact ⟨ss₁, ss₂, ps₁, ps₂, rfl, rfl, .again hp hseen h₁, h₂⟩
  | @file seen f p l rest included ss ps hp hnew hforms h ih =>
    cases fs with
    | nil =>
      subst hall
      exact ⟨[], ss, [], p :: ps, rfl, rfl, .done, .file hp hnew hforms h⟩
    | cons g fs =>
      obtain ⟨rfl, tail⟩ := List.cons.inj hall
      have hall : included ++ fs ++ gs = included ++ rest := by
        rw [← tail]
        exact List.append_assoc ..
      obtain ⟨ss₁, ss₂, ps₁, ps₂, rfl, rfl, h₁, h₂⟩ := ih hall
      refine ⟨ss₁, ss₂, p :: ps₁, ps₂, rfl, rfl, .file hp hnew hforms h₁, ?_⟩
      simpa using h₂

theorem Gives.cut {before after : List PlacedForm}
    (h : s.Gives seen (before ++ f :: after) ss ps) :
    ∃ front block back past found coming, ss = front ++ (block ++ back) ∧
      ps = past ++ (found ++ coming) ∧ s.Gives seen before front past ∧
        s.Gives (Place.routes past ++ seen) [f] block found ∧
          s.Gives (Place.routes found ++ (Place.routes past ++ seen)) after back coming := by
  obtain ⟨front, _, past, _, rfl, rfl, hbefore, rest⟩ := h.split
  have rest : s.Gives (Place.routes past ++ seen) ([f] ++ after) _ _ := rest
  obtain ⟨block, back, found, coming, rfl, rfl, hblock, hafter⟩ := rest.split
  exact ⟨front, block, back, past, found, coming, rfl, rfl, hbefore, hblock, hafter⟩

/-- What a file that is read adds with all that is first reached through it stands together. -/
theorem Gives.block (h : s.Gives seen fs ss ps) (hp : p ∈ ps) (hgs : s.forms p l = .ok gs) :
    ∃ front block back earlier found later, ss = front ++ block ++ back ∧
      ps = earlier ++ p :: found ++ later ∧
        s.Gives (Place.routes (earlier ++ [p]) ++ seen) gs block found := by
  induction h with
  | done => simp at hp
  | @statement seen f x fs ss ps _ _ ih =>
    obtain ⟨front, block, back, earlier, found, later, rfl, rfl, h⟩ := ih hp
    exact ⟨x :: front, block, back, earlier, found, later, rfl, rfl, h⟩
  | again _ _ _ ih => exact ih hp
  | @file seen f q m fs gs' ss ps hq _ hforms rest ih =>
    by_cases hpq : p = q
    · subst hpq
      obtain rfl := forms_unique hgs hforms
      obtain ⟨ss₁, ss₂, ps₁, ps₂, rfl, rfl, h₁, h₂⟩ := rest.split
      exact ⟨[], ss₁, ss₂, [], ps₁, ps₂, rfl, rfl, h₁⟩
    · have hps : p ∈ ps := (List.mem_cons.1 hp).resolve_left hpq
      obtain ⟨front, block, back, earlier, found, later, rfl, rfl, h⟩ := ih hps
      refine ⟨front, block, back, q :: earlier, found, later, rfl, rfl, ?_⟩
      simpa using h

theorem Gives.of_seen (h : s.Gives seen [f] ss ps) (hp : s.Includes f p) (hseen : p.route ∈ seen) :
    ss = [] ∧ ps = [] := by
  cases h with
  | statement hf _ => exact absurd hf hp.ne_statement
  | again _ _ rest =>
    cases rest
    exact ⟨rfl, rfl⟩
  | file hq hnew _ _ => exact absurd (hp.unique hq ▸ hseen) hnew

theorem Gives.of_new (h : s.Gives seen [f] ss ps) (hp : s.Includes f p) (hnew : p.route ∉ seen) :
    ps.head? = some p := by
  cases h with
  | statement hf _ => exact absurd hf hp.ne_statement
  | again hq hseen _ => exact absurd (hp.unique hq ▸ hseen) hnew
  | file hq _ _ _ =>
    rw [hp.unique hq]
    rfl

/-! ## A main file -/

section Main

variable {main : Path}

theorem gives_of_ofFile (h : (s.ofFile main).statements = .ok ss) :
    ∃ p l gs ps, p.Proper ∧ s.forms p l = .ok gs ∧ (s.ofFile main).reads = p :: ps ∧
      s.Gives [p.route] gs ss ps := by
  simp only [ofFile] at h ⊢
  cases hp : s.files.locate main with
  | error reason => simp [hp, Expansion.ask, Expansion.failed] at h
  | ok p =>
    cases hg : s.forms p (Location.ofFile main.text) with
    | error e => simp [hp, hg, Expansion.ask, Expansion.read, Expansion.failed] at h
    | ok gs =>
      simp only [hp, hg, Expansion.ask, Expansion.read] at h ⊢
      exact ⟨p, _, gs, _, FileSystem.proper_of_locate hp, hg, rfl, gives_of_expand h⟩

theorem filter_ofFile (h : (s.ofFile main).statements = .ok ss) (hp : p ∈ (s.ofFile main).reads)
    (hgs : s.forms p l = .ok gs) : ss.filter (·.standsIn p) = own gs := by
  obtain ⟨q, m, fs, ps, hq, hfs, hreads, hgives⟩ := gives_of_ofFile h
  have unread : q ∉ ps := fun hps => hgives.reads.new q hps List.mem_cons_self
  rw [hreads] at hp
  rcases List.mem_cons.1 hp with rfl | hp
  · obtain rfl := forms_unique hgs hfs
    rw [hgives.filter_of_unread hq unread, filter_own_of_forms hgs]
  · have hpq : p ≠ q := fun heq => unread (heq ▸ hp)
    exact hgives.filter_of_read hp hgs (filter_own_elsewhere hfs (hgives.proper p hp) hq hpq)

theorem block_ofFile (h : (s.ofFile main).statements = .ok ss) (hp : p ∈ (s.ofFile main).reads) :
    ∃ l gs front block back earlier found later, s.forms p l = .ok gs ∧
      ss = front ++ block ++ back ∧ (s.ofFile main).reads = earlier ++ p :: found ++ later ∧
        s.Gives (Place.routes (earlier ++ [p])) gs block found := by
  obtain ⟨q, m, fs, ps, hq, hfs, hreads, hgives⟩ := gives_of_ofFile h
  rw [hreads] at hp ⊢
  rcases List.mem_cons.1 hp with rfl | hp
  · exact ⟨m, fs, [], ss, [], [], ps, [], hfs, by simp, by simp, by simpa using hgives⟩
  · obtain ⟨l, gs, hgs⟩ := hgives.forms_of_mem hp
    obtain ⟨front, block, back, earlier, found, later, rfl, rfl, hblock⟩ := hgives.block hp hgs
    refine ⟨l, gs, front, block, back, q :: earlier, found, later, hgs, rfl, rfl, ?_⟩
    simpa using hblock

theorem nodup_ofFile (h : (s.ofFile main).statements = .ok ss) : (s.ofFile main).reads.Nodup := by
  obtain ⟨q, m, fs, ps, hq, hfs, hreads, hgives⟩ := gives_of_ofFile h
  rw [hreads]
  exact List.nodup_cons.2 ⟨fun hps => hgives.reads.new q hps List.mem_cons_self, hgives.reads.nodup⟩

theorem standsIn_ofFile (h : (s.ofFile main).statements = .ok ss) (hx : x ∈ ss) :
    ∃ p ∈ (s.ofFile main).reads, x.standsIn p := by
  obtain ⟨q, m, fs, ps, hq, hfs, hreads, hgives⟩ := gives_of_ofFile h
  rw [hreads]
  rcases hgives.own_or_read hx with hown | ⟨p, hp, hxp⟩
  · exact ⟨q, List.mem_cons_self, standsIn_of_mem_own hfs hown⟩
  · exact ⟨p, List.mem_cons_of_mem _ hp, hxp⟩

theorem proper_ofFile (h : (s.ofFile main).statements = .ok ss) :
    ∀ p ∈ (s.ofFile main).reads, p.Proper := by
  obtain ⟨q, m, fs, ps, hq, hfs, hreads, hgives⟩ := gives_of_ofFile h
  rw [hreads]
  exact List.forall_mem_cons.2 ⟨hq, hgives.proper⟩

theorem nodup_paths_ofFile (h : (s.ofFile main).statements = .ok ss) :
    ((s.ofFile main).reads.map (·.path.text)).Nodup := by
  have proper := proper_ofFile h
  apply List.Nodup.map_on _ (nodup_ofFile h)
  intro p hp q hq hpq
  exact (proper p hp).path_injective (proper q hq) hpq

/-- What an include adds: `f` stands in the file at `p`, with `before` and `after` around it, and
asks for `target`. The files `met` were read by then, its `block` of statements comes from the
files `found`, and `front` and `back` are the statements on the two sides of the block. -/
structure Splice (s : Sources) (p : Place) (before : List PlacedForm) (f : PlacedForm)
    (after : List PlacedForm) (target : Place) (front block back : List Statement)
    (met found : List Place) : Prop where
  within : p ∈ met
  behind : ∃ outer added earlier past, front = outer ++ added ∧ met = earlier ++ p :: past ∧
    s.Gives (Place.routes (earlier ++ [p])) before added past
  given : s.Gives (Place.routes met) [f] block found
  ahead : ∃ added outer coming, back = added ++ outer ∧
    s.Gives (Place.routes (met ++ found)) after added coming
  ownBefore : front.filter (·.standsIn p) = own before
  ownAfter : back.filter (·.standsIn p) = own after
  again : target ∈ met → block = [] ∧ found = []
  fresh : target ∉ met → found.head? = some target
  reached : ∀ q, q ∈ found ↔ s.Reaches (Place.routes met) [f] q
  whole : ∀ x ∈ block, ∃ q ∈ found, x.standsIn q
  apart : ∀ x ∈ front ++ back, ∀ q ∈ found, ¬x.standsIn q

theorem filter_outside {k : Statement → Bool} {front block back : List Statement}
    (h : (front ++ block ++ back).filter k = block.filter k) :
    front.filter k = [] ∧ back.filter k = [] := by
  have := congrArg List.length h
  simp only [List.filter_append, List.length_append] at this
  constructor <;> apply List.eq_nil_of_length_eq_zero <;> omega

/-- A part of what a main file adds that says all that some files say leaves nothing of them to the
statements around it. -/
theorem apart_ofFile {front block back : List Statement} {found : List Place}
    (h : (s.ofFile main).statements = .ok (front ++ block ++ back))
    (hfound : ∀ q ∈ found, q ∈ (s.ofFile main).reads ∧
      ∀ l fs, s.forms q l = .ok fs → block.filter (·.standsIn q) = own fs) :
    ∀ x ∈ front ++ back, ∀ q ∈ found, ¬x.standsIn q := by
  intro x hx q hq hxq
  obtain ⟨hread, hsaid⟩ := hfound q hq
  obtain ⟨l, fs, -, -, -, -, -, -, hfs, -⟩ := block_ofFile h hread
  have all := filter_ofFile h hread hfs
  rw [← hsaid l fs hfs] at all
  obtain ⟨hfront, hback⟩ := filter_outside all
  rcases List.mem_append.1 hx with hx | hx
  · exact List.filter_eq_nil_iff.1 hfront x hx hxq
  · exact List.filter_eq_nil_iff.1 hback x hx hxq

theorem splice_ofFile (h : (s.ofFile main).statements = .ok ss) (hp : p ∈ (s.ofFile main).reads)
    (hgs : s.forms p l = .ok gs) {before after : List PlacedForm} (hcut : gs = before ++ f :: after)
    (htarget : s.Includes f q) :
    ∃ front block back met found rest, ss = front ++ block ++ back ∧
      (s.ofFile main).reads = met ++ found ++ rest ∧
        s.Splice p before f after q front block back met found := by
  obtain ⟨m, gs', outer₁, all, outer₂, earlier, others, later, hgs', rfl, hreads, hall⟩ :=
    block_ofFile h hp
  obtain rfl := forms_unique hgs hgs'
  rw [hcut] at hall
  obtain ⟨added₁, block, added₂, past, found, coming, rfl, rfl, hbefore, hblock, hafter⟩ :=
    hall.cut
  -- The files read in front of the include, and those that are read for it.
  have hmet : Place.routes past ++ Place.routes (earlier ++ [p]) =
      Place.routes (earlier ++ p :: past) := by simp
  rw [hmet] at hblock hafter
  have hnodup := nodup_ofFile h
  rw [hreads] at hnodup
  have hproper := proper_ofFile h p hp
  have hpast : p ∉ past := by grind
  have hfound : p ∉ found := by grind
  have hcoming : p ∉ coming := by grind
  -- The file's own statements lie in the part that its forms add.
  have own_f : own [f] = [] := own_cons_of_includes htarget
  have own_gs : own gs = own before ++ own after := by
    rw [hcut, own_append, own_cons_of_includes htarget]
  have own_before : added₁.filter (·.standsIn p) = own before :=
    hbefore.filter_own hproper hpast hgs (by simp [hcut])
  have own_after : added₂.filter (·.standsIn p) = own after :=
    hafter.filter_own hproper hcoming hgs (by simp [hcut])
  have own_block : block.filter (·.standsIn p) = [] := by
    rw [hblock.filter_of_unread hproper hfound, own_f, List.filter_nil]
  have inner : (added₁ ++ (block ++ added₂)).filter (·.standsIn p) = own gs := by
    simp [own_before, own_after, own_block, own_gs]
  obtain ⟨hout₁, hout₂⟩ := filter_outside ((filter_ofFile h hp hgs).trans inner.symm)
  refine ⟨outer₁ ++ added₁, block, added₂ ++ outer₂, earlier ++ p :: past, found,
    coming ++ later, by simp, by simp [hreads], ?_⟩
  constructor
  case within => simp
  case behind => exact ⟨outer₁, added₁, earlier, past, rfl, rfl, hbefore⟩
  case given => exact hblock
  case ahead => exact ⟨added₂, outer₂, coming, rfl, by simpa using hafter⟩
  case ownBefore => simp [hout₁, own_before]
  case ownAfter => simp [hout₂, own_after]
  case again =>
    intro hq
    exact hblock.of_seen htarget (Place.route_mem_routes.2 hq)
  case fresh =>
    intro hq
    exact hblock.of_new htarget (Place.route_mem_routes.not.2 hq)
  case reached =>
    intro r
    exact hblock.mem_iff_reaches
  case whole =>
    intro x hx
    rcases hblock.own_or_read hx with hown | hread
    · simp [own_f] at hown
    · exact hread
  case apart =>
    have parts : (s.ofFile main).statements =
        .ok (outer₁ ++ added₁ ++ block ++ (added₂ ++ outer₂)) := by
      rw [h]
      simp
    apply apart_ofFile parts
    intro r hr
    refine ⟨by simp [hreads, hr], ?_⟩
    intro l fs hfs
    exact hblock.filter_of_read hr hfs (by rw [own_f, List.filter_nil])

/-- **Includes splice.** No statement is lost, doubled or moved: from each file that was read come
the statements of its own forms, in order, and there are no others. What an include adds is one
block in the place of the form, and nothing where its file was met before. -/
theorem ofFile_splices (h : (s.ofFile main).statements = .ok ss) :
    ((s.ofFile main).reads.map (·.path.text)).Nodup ∧
    (∀ x ∈ ss, ∃ p ∈ (s.ofFile main).reads, x.standsIn p) ∧
    ∀ p ∈ (s.ofFile main).reads, ∃ gs, (∀ l, s.forms p l = .ok gs) ∧
      (∀ g ∈ gs, (∃ x, Form.ofSExpr g.form = .ok (.statement x)) ∨ ∃ q, s.Includes g q) ∧
      ss.filter (·.standsIn p) = own gs ∧
      ∀ before f after target, gs = before ++ f :: after → s.Includes f target →
        ∃ front block back met found rest, ss = front ++ block ++ back ∧
          (s.ofFile main).reads = met ++ found ++ rest ∧
            s.Splice p before f after target front block back met found := by
  refine ⟨nodup_paths_ofFile h, fun x hx => standsIn_ofFile h hx, ?_⟩
  intro p hp
  obtain ⟨l, gs, _, _, _, _, _, _, hgs, _, _, hblock⟩ := block_ofFile h hp
  refine ⟨gs, forms_elsewhere hgs, hblock.statement_or_includes, filter_ofFile h hp hgs, ?_⟩
  intro before f after target hcut htarget
  exact splice_ofFile h hp hgs hcut htarget

/-- Two files that include each other. -/
def loop : Sources :=
  ⟨⟨[(⟨["a"]⟩, .file (.text "(transform x y)(include_file \"b\")(transform y z)")),
    (⟨["b"]⟩, .file (.text "(include_file \"a\")(transform z x)"))], ⟨"/"⟩⟩, []⟩

theorem statements_loop :
    (loop.ofFile ⟨"a"⟩).statements = .ok
      [.transform ⟨"x", "y", ⟨some "/a", 1, 1⟩⟩, .transform ⟨"z", "x", ⟨some "/b", 1, 19⟩⟩,
        .transform ⟨"y", "z", ⟨some "/a", 1, 34⟩⟩] := by
  rw [Evaluation.ofFile_eq]
  decide +kernel

theorem ofFile_splices_loop :
    ∃ ss, (loop.ofFile ⟨"a"⟩).statements = .ok ss ∧ ∀ p ∈ (loop.ofFile ⟨"a"⟩).reads,
      ∃ gs, (∀ l, loop.forms p l = .ok gs) ∧ ss.filter (·.standsIn p) = own gs := by
  refine ⟨_, statements_loop, ?_⟩
  intro p hp
  obtain ⟨gs, hgs, -, hown, -⟩ := (ofFile_splices statements_loop).2.2 p hp
  exact ⟨gs, hgs, hown⟩

end Main

end Sources

end TypeDomains
