import Mathlib.Data.Prod.Lex
import Mathlib.Logic.Relation
import Mathlib.Order.WellFounded
import TypeDomains.Proofs.Walk

/-!
# Reachability

The expansion of a text as a search of the include graph: it comes to an end whatever the graph is
(`not_endless`), and where it succeeds it has read the files that the text reaches, each of them
once (`ofText_searches`).
-/

namespace TypeDomains

/-- What is left of a walk: the routes seen so far and the forms to come. -/
structure Walk where
  seen : List Route
  forms : List PlacedForm

namespace Sources

/-- One more form is dealt with. -/
inductive Next (s : Sources) : Walk → Walk → Prop where
  | statement {seen f x fs} : Form.ofSExpr f.form = .ok (.statement x) →
    Next s ⟨seen, f :: fs⟩ ⟨seen, fs⟩
  | again {seen f p fs} : s.Includes f p → p.route ∈ seen → Next s ⟨seen, f :: fs⟩ ⟨seen, fs⟩
  | file {seen f p l fs gs} : s.Includes f p → p.route ∉ seen → s.forms p l = .ok gs →
    Next s ⟨seen, f :: fs⟩ ⟨p.route :: seen, gs ++ fs⟩

/-- The files that the forms lead to past no file that is seen. -/
inductive Reaches (s : Sources) (seen : List Route) (fs : List PlacedForm) : Place → Prop where
  | directly {f p} : f ∈ fs → s.Includes f p → p.route ∉ seen → Reaches s seen fs p
  | through {p l gs g q} : Reaches s seen fs p → s.forms p l = .ok gs → g ∈ gs →
    s.Includes g q → q.route ∉ seen → Reaches s seen fs q

variable {s : Sources} {seen : List Route} {f : PlacedForm} {fs gs : List PlacedForm}
  {p r : Place} {l : Location} {ss : List Statement} {ps : List Place} {w v : Walk}

/-! ## The walk ends -/

theorem unseen_lt_of_includes (h : s.Includes f p) (hp : p.route ∉ seen) :
    s.unseen (p.route :: seen) < s.unseen seen := by
  obtain ⟨literal, l, hf, hfind⟩ := h
  exact unseen_lt_of_step (step_eq_file.2 ⟨literal, hf, hfind, hp⟩)

/-- What a walk still has to do: files to see, and forms before the next of them. -/
def Walk.left (s : Sources) (w : Walk) : Nat ×ₗ Nat := toLex (s.unseen w.seen, w.forms.length)

theorem Next.left_lt (h : s.Next w v) : Walk.left s v < Walk.left s w := by
  simp only [Walk.left, Prod.Lex.toLex_lt_toLex]
  cases h with
  | statement _ => exact .inr ⟨rfl, by simp⟩
  | again _ _ => exact .inr ⟨rfl, by simp⟩
  | file hp hnew _ => exact .inl (unseen_lt_of_includes hp hnew)

theorem not_endless (s : Sources) (run : ℕ → Walk) : ¬∀ n, s.Next (run n) (run (n + 1)) := by
  intro h
  obtain ⟨n, hn⟩ := WellFounded.not_rel_apply_succ (r := (· < ·)) fun n => Walk.left s (run n)
  exact hn (h n).left_lt

/-- An expansion is such a walk: it goes as far as it can, and succeeds if no form is left. -/
theorem walk_of_expand (s : Sources) (seen : List Route) (fs : List PlacedForm) :
    ∃ last, Relation.ReflTransGen s.Next ⟨seen, fs⟩ last ∧ (∀ w, ¬s.Next last w) ∧
      ((∃ ss, (s.expand seen fs).statements = .ok ss) ↔ last.forms = []) := by
  induction seen, fs using Sources.expand.induct s with
  | case1 seen =>
    refine ⟨⟨seen, []⟩, .refl, ?_, by simp [Expansion.done]⟩
    intro w h
    cases h
  | case2 seen f fs ih ihFile =>
    rw [expand_cons]
    cases hs : s.step seen f with
    | error e =>
      refine ⟨⟨seen, f :: fs⟩, .refl, ?_, by simp [Expansion.ask, Expansion.failed]⟩
      intro w h
      cases h with
      | statement hf => simp [step_eq_statement.2 hf] at hs
      | again hp hseen => simp [step_eq_nothing.2 ⟨_, hp, hseen⟩] at hs
      | file hp hnew _ =>
        obtain ⟨literal, l, hf, hfind⟩ := hp
        simp [step_eq_file.2 ⟨literal, hf, hfind, hnew⟩] at hs
    | ok k =>
      cases k with
      | statement x =>
        obtain ⟨last, hwalk, hlast, hok⟩ := ih
        refine ⟨last, hwalk.head (.statement (step_eq_statement.1 hs)), hlast, ?_⟩
        rw [← hok]
        simp [Expansion.ask, Expansion.prepend, map_ok]
      | nothing =>
        obtain ⟨last, hwalk, hlast, hok⟩ := ih
        obtain ⟨p, hp, hseen⟩ := step_eq_nothing.1 hs
        exact ⟨last, hwalk.head (.again hp hseen), hlast, hok⟩
      | file p l =>
        obtain ⟨literal, hf, hfind, hnew⟩ := step_eq_file.1 hs
        have hp : s.Includes f p := ⟨literal, l, hf, hfind⟩
        simp only [Expansion.ask, Expansion.read]
        cases hg : s.forms p l with
        | error e =>
          refine ⟨⟨seen, f :: fs⟩, .refl, ?_, by simp [Expansion.failed]⟩
          intro w h
          cases h with
          | statement hf' => exact hp.ne_statement hf'
          | again hq hseen => exact hnew (hp.unique hq ▸ hseen)
          | file hq _ hforms =>
            obtain rfl := hp.unique hq
            simp [forms_elsewhere hforms l] at hg
        | ok gs =>
          obtain ⟨last, hwalk, hlast, hok⟩ := ihFile p l hs gs
          exact ⟨last, hwalk.head (.file hp hnew hg), hlast, hok⟩

/-! ## The walk reads what can be reached -/

theorem Reaches.mono (h : s.Reaches seen gs r) (sub : ∀ f ∈ gs, f ∈ fs) : s.Reaches seen fs r := by
  induction h with
  | directly hf hp hnew => exact .directly (sub _ hf) hp hnew
  | through _ hforms hg hq hnew ih => exact .through ih hforms hg hq hnew

theorem reaches_nil : ¬s.Reaches seen [] r := by
  intro h
  induction h with
  | directly hf _ _ => simp at hf
  | through _ _ _ _ _ ih => exact ih

/-- A form that leads to no new file may be left out. -/
theorem reaches_cons_of_old (old : ∀ p, s.Includes f p → p.route ∈ seen) :
    s.Reaches seen (f :: fs) r ↔ s.Reaches seen fs r := by
  constructor
  · intro h
    induction h with
    | directly hf hp hnew =>
      rcases List.mem_cons.1 hf with rfl | hf
      · exact absurd (old _ hp) hnew
      · exact .directly hf hp hnew
    | through _ hforms hg hq hnew ih => exact .through ih hforms hg hq hnew
  · intro h
    exact h.mono fun _ => List.mem_cons_of_mem _

/-- A form that leads to a new file may be replaced by the forms of that file. -/
theorem reaches_cons_of_new (hp : s.Includes f p) (hnew : p.route ∉ seen)
    (hforms : s.forms p l = .ok gs) :
    s.Reaches seen (f :: fs) r ↔ r = p ∨ s.Reaches (p.route :: seen) (gs ++ fs) r := by
  have first : s.Reaches seen (f :: fs) p := .directly List.mem_cons_self hp hnew
  have unseen {q : Place} (hq : q ≠ p) (hnew : q.route ∉ seen) : q.route ∉ p.route :: seen :=
    List.not_mem_cons_of_ne_of_not_mem (fun h => hq (Place.route_injective h)) hnew
  constructor
  · intro h
    induction h with
    | @directly g q hg hq hqnew =>
      by_cases hqp : q = p
      · exact .inl hqp
      rcases List.mem_cons.1 hg with rfl | hg
      · exact absurd (hq.unique hp) hqp
      · exact .inr (.directly (List.mem_append_right _ hg) hq (unseen hqp hqnew))
    | @through q m hs g r _ hqforms hg hr hrnew ih =>
      by_cases hrp : r = p
      · exact .inl hrp
      rcases ih with rfl | ih
      · obtain rfl := forms_unique hforms hqforms
        exact .inr (.directly (List.mem_append_left _ hg) hr (unseen hrp hrnew))
      · exact .inr (.through ih hqforms hg hr (unseen hrp hrnew))
  · rintro (rfl | h)
    · exact first
    · induction h with
      | directly hg hq hqnew =>
        have hqnew := List.not_mem_of_not_mem_cons hqnew
        rcases List.mem_append.1 hg with hg | hg
        · exact .through first hforms hg hq hqnew
        · exact .directly (List.mem_cons_of_mem _ hg) hq hqnew
      | through _ hqforms hg hr hrnew ih =>
        exact .through ih hqforms hg hr (List.not_mem_of_not_mem_cons hrnew)

theorem Gives.mem_iff_reaches (h : s.Gives seen fs ss ps) : r ∈ ps ↔ s.Reaches seen fs r := by
  induction h with
  | done => simp [reaches_nil]
  | statement hf _ ih =>
    rw [reaches_cons_of_old fun p hp => absurd hf hp.ne_statement]
    exact ih
  | again hp hseen _ ih =>
    rw [reaches_cons_of_old fun q hq => hp.unique hq ▸ hseen]
    exact ih
  | file hp hnew hforms _ ih =>
    rw [reaches_cons_of_new hp hnew hforms, List.mem_cons, ih]

/-- Whether an expansion succeeds or not, it reads nothing but what can be reached. -/
theorem reaches_of_mem_reads (s : Sources) (seen : List Route) (fs : List PlacedForm) :
    ∀ r ∈ (s.expand seen fs).reads, s.Reaches seen fs r := by
  induction seen, fs using Sources.expand.induct s with
  | case1 seen => simp [Expansion.done]
  | case2 seen f fs ih ihFile =>
    have later (r : Place) (hr : s.Reaches seen fs r) : s.Reaches seen (f :: fs) r :=
      hr.mono fun _ => List.mem_cons_of_mem _
    rw [expand_cons]
    cases hs : s.step seen f with
    | error e => simp [Expansion.ask, Expansion.failed]
    | ok k =>
      cases k with
      | statement x | nothing =>
        intro r hr
        exact later r (ih r hr)
      | file p l =>
        obtain ⟨literal, hf, hfind, hnew⟩ := step_eq_file.1 hs
        have hp : s.Includes f p := ⟨literal, l, hf, hfind⟩
        have first : s.Reaches seen (f :: fs) p := .directly List.mem_cons_self hp hnew
        refine List.forall_mem_cons.2 ⟨first, ?_⟩
        cases hg : s.forms p l with
        | error e => simp [Expansion.failed]
        | ok gs =>
          intro r hr
          exact (reaches_cons_of_new hp hnew hg).2 (.inr (ihFile p l hs gs r hr))

/-! ## The search -/

/-- What an expansion `x` of the forms owes: it ends, and succeeds if its walk comes to the last
form; it reads no file twice and none that was seen; and a success has read what can be reached. -/
structure Searches (s : Sources) (seen : List Route) (fs : List PlacedForm) (x : Expansion) :
    Prop where
  ends : ∀ run : ℕ → Walk, run 0 = ⟨seen, fs⟩ → ¬∀ n, s.Next (run n) (run (n + 1))
  walk : ∃ last, Relation.ReflTransGen s.Next ⟨seen, fs⟩ last ∧ (∀ w, ¬s.Next last w) ∧
    ((∃ ss, x.statements = .ok ss) ↔ last.forms = [])
  bounded : x.reads.length ≤ s.unseen seen
  once : x.reads.Nodup
  fresh : ∀ p ∈ x.reads, p.route ∉ seen
  after : ∀ r, r ∈ x.seen ↔ r ∈ seen ∨ ∃ p ∈ x.reads, p.route = r
  reached : ∀ ss, x.statements = .ok ss → ∀ p, p ∈ x.reads ↔ s.Reaches seen fs p

theorem expand_searches (s : Sources) (seen : List Route) (fs : List PlacedForm) :
    s.Searches seen fs (s.expand seen fs) where
  ends run _ := not_endless s run
  walk := walk_of_expand s seen fs
  bounded := (expand_reads s seen fs).length_le
  once := (expand_reads s seen fs).nodup
  fresh := (expand_reads s seen fs).new
  after r := by simp [(expand_reads s seen fs).seen_eq, or_comm]
  reached _ h _ := (gives_of_expand h).mem_iff_reaches

/-- **An expansion searches the include graph.** It ends on every file system, whatever the
includes are; it fails without a trace where the text is no row of values; and a main file is read
once, even if it is included again. -/
theorem ofText_searches (s : Sources) (seen : List Route) (base : Path) (file : Option String)
    (text : String) :
    (∀ e, SExpr.ofText file text = .error e →
      (s.ofText seen base file text).seen = seen ∧ (s.ofText seen base file text).reads = [] ∧
        ∀ ss, (s.ofText seen base file text).statements ≠ .ok ss) ∧
    (∀ values, SExpr.ofText file text = .ok values →
      s.Searches seen (values.map (⟨base, ·⟩)) (s.ofText seen base file text)) ∧
    ∀ main place, s.files.locate main = .ok place → (s.ofFile main).reads.count place = 1 := by
  refine ⟨?_, ?_, ?_⟩
  · intro e he
    simp [ofText, he, Expansion.failed]
  · intro values hv
    simp only [ofText, hv]
    exact expand_searches s seen _
  · intro main place hplace
    simp only [ofFile, hplace, Expansion.ask, Expansion.read, List.count_cons_self]
    suffices place ∉ _ by rw [List.count_eq_zero_of_not_mem this]
    cases hg : s.forms place (Location.ofFile main.text) with
    | error e => simp [Expansion.failed]
    | ok gs =>
      intro h
      exact (expand_reads s [place.route] gs).new _ h List.mem_cons_self

end Sources

end TypeDomains
