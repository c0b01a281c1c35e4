import TypeDomains.Proofs.Places

/-!
# The walk over included files

What one form of a source can come to (`step_eq_statement`, `step_eq_nothing`, `step_eq_file`), a
successful expansion as a derivation (`gives_of_expand`, `expand_of_gives`), and what holds of every
expansion whether it succeeds or not: it reads one new file after the other (`expand_reads`), so no
file is read twice (`Reads.nodup`).
-/

namespace TypeDomains

namespace Place

theorem route_injective : Function.Injective route := by
  intro p q h
  cases p
  cases q
  simpa [route] using h

/-- What is seen once the files have been read, the latest first. -/
def routes (ps : List Place) : List Route := ps.reverse.map route

@[simp]
theorem routes_nil : routes [] = [] := rfl

@[simp]
theorem routes_append (ps qs : List Place) : routes (ps ++ qs) = routes qs ++ routes ps := by
  simp [routes]

@[simp]
theorem routes_cons (p : Place) (ps : List Place) : routes (p :: ps) = routes ps ++ [p.route] := by
  simp [routes]

@[simp]
theorem mem_routes {r : Route} {ps : List Place} : r ∈ routes ps ↔ ∃ p ∈ ps, p.route = r := by
  simp [routes]

theorem route_mem_routes {p : Place} {ps : List Place} : p.route ∈ routes ps ↔ p ∈ ps := by
  simp [route_injective.eq_iff]

end Place

namespace Sources

/-- The form asks for the file at `p`. -/
def Includes (s : Sources) (f : PlacedForm) (p : Place) : Prop :=
  ∃ literal l, Form.ofSExpr f.form = .ok (.inclusion literal l) ∧
    s.find f.base literal l = .ok p

/-- The forms expand to the statements, and the places are the files read on the way. -/
inductive Gives (s : Sources) :
    List Route → List PlacedForm → List Statement → List Place → Prop where
  | done {seen} : Gives s seen [] [] []
  | statement {seen f x fs ss ps} : Form.ofSExpr f.form = .ok (.statement x) →
    Gives s seen fs ss ps → Gives s seen (f :: fs) (x :: ss) ps
  | again {seen f p fs ss ps} : s.Includes f p → p.route ∈ seen →
    Gives s seen fs ss ps → Gives s seen (f :: fs) ss ps
  | file {seen f p l fs gs ss ps} : s.Includes f p → p.route ∉ seen → s.forms p l = .ok gs →
    Gives s (p.route :: seen) (gs ++ fs) ss ps → Gives s seen (f :: fs) ss (p :: ps)

/-- The files are read in this order, each of them new, and in the end the routes `after` are
seen. -/
inductive Reads (s : Sources) : List Route → List Place → List Route → Prop where
  | stop {seen} : Reads s seen [] seen
  | enter {seen p ps after} : p.route ∉ seen → s.unseen (p.route :: seen) < s.unseen seen →
    Reads s (p.route :: seen) ps after → Reads s seen (p :: ps) after

variable {s : Sources} {seen after : List Route} {f : PlacedForm} {fs gs : List PlacedForm}
  {p q : Place} {l m : Location} {x : Statement} {ss : List Statement} {ps : List Place}

/-! ## One form -/

theorem Includes.unique (hp : s.Includes f p) (hq : s.Includes f q) : p = q := by
  obtain ⟨a, l, hf, hp⟩ := hp
  obtain ⟨b, m, hg, hq⟩ := hq
  rw [hf] at hg
  cases hg
  rw [hp] at hq
  exact Except.ok.inj hq

theorem Includes.proper (h : s.Includes f p) : p.Proper := by
  obtain ⟨literal, l, -, hp⟩ := h
  exact proper_of_find hp

theorem Includes.ne_statement (h : s.Includes f p) : Form.ofSExpr f.form ≠ .ok (.statement x) := by
  obtain ⟨literal, l, hf, -⟩ := h
  simp [hf]

theorem step_eq_statement :
    s.step seen f = .ok (.statement x) ↔ Form.ofSExpr f.form = .ok (.statement x) := by
  simp only [step, bind_ok]
  constructor
  · rintro ⟨form, hf, h⟩
    cases form with
    | statement y =>
      simp only [pure_ok, Step.statement.injEq] at h
      rw [hf, h]
    | inclusion literal l =>
      simp only [bind_ok, pure_ok] at h
      obtain ⟨place, -, h⟩ := h
      split at h <;> simp at h
  · intro h
    exact ⟨_, h, rfl⟩

/-- The form asks for a file that is seen or not; `k` is what the step makes of it. -/
theorem step_of_includes {k : Step} (hk : ∀ y, k ≠ .statement y) :
    s.step seen f = .ok k ↔ ∃ literal l p, Form.ofSExpr f.form = .ok (.inclusion literal l) ∧
      s.find f.base literal l = .ok p ∧
        (if seen.contains p.route then .nothing else .file p l) = k := by
  simp only [step, bind_ok]
  constructor
  · rintro ⟨form, hf, h⟩
    cases form with
    | statement y =>
      simp only [pure_ok] at h
      exact absurd h.symm (hk y)
    | inclusion literal l =>
      simp only [bind_ok, pure_ok] at h
      obtain ⟨p, hp, h⟩ := h
      exact ⟨literal, l, p, hf, hp, h⟩
  · rintro ⟨literal, l, p, hf, hp, h⟩
    refine ⟨_, hf, ?_⟩
    simp only [hp, bind, Except.bind, pure, Except.pure, h]

theorem step_eq_nothing :
    s.step seen f = .ok .nothing ↔ ∃ p, s.Includes f p ∧ p.route ∈ seen := by
  rw [step_of_includes (by simp)]
  constructor
  · rintro ⟨literal, l, p, hf, hp, h⟩
    split at h
    · exact ⟨p, ⟨literal, l, hf, hp⟩, by simpa using ‹seen.contains p.route›⟩
    · simp at h
  · rintro ⟨p, ⟨literal, l, hf, hp⟩, h⟩
    exact ⟨literal, l, p, hf, hp, by simp [h]⟩

theorem step_eq_file :
    s.step seen f = .ok (.file p l) ↔ ∃ literal, Form.ofSExpr f.form = .ok (.inclusion literal l) ∧
      s.find f.base literal l = .ok p ∧ p.route ∉ seen := by
  rw [step_of_includes (by simp)]
  constructor
  · rintro ⟨literal, m, q, hf, hq, h⟩
    split at h
    · simp at h
    · rename_i hs
      obtain ⟨rfl, rfl⟩ := Step.file.inj h
      exact ⟨literal, hf, hq, by simpa using hs⟩
  · rintro ⟨literal, hf, hp, h⟩
    exact ⟨literal, l, p, hf, hp, by simp [h]⟩

theorem forms_ok : s.forms p l = .ok gs ↔ ∃ text values, s.files.read p = .ok text ∧
    SExpr.ofText (some p.path.text) text = .ok values ∧
      values.map (⟨p.parent.path, ·⟩) = gs := by
  unfold forms
  cases hr : s.files.read p with
  | error reason => simp
  | ok text => cases hv : SExpr.ofText (some p.path.text) text <;> simp [hv]

/-- What a file holds does not depend on who asks for it. -/
theorem forms_elsewhere (h : s.forms p l = .ok gs) (m : Location) : s.forms p m = .ok gs :=
  forms_ok.2 (forms_ok.1 h)

theorem forms_unique (hf : s.forms p l = .ok fs) (hg : s.forms p m = .ok gs) : fs = gs := by
  rw [forms_elsewhere hf m] at hg
  exact Except.ok.inj hg

/-! ## Success -/

theorem gives_of_expand (h : (s.expand seen fs).statements = .ok ss) :
    s.Gives seen fs ss (s.expand seen fs).reads := by
  induction seen, fs using Sources.expand.induct s generalizing ss with
  | case1 seen =>
    simp only [expand_nil, Expansion.done, Except.ok.injEq] at h ⊢
    rw [← h]
    exact .done
  | case2 seen f fs ih ihFile =>
    rw [expand_cons] at h ⊢
    cases hs : s.step seen f with
    | error e => simp [hs, Expansion.ask, Expansion.failed] at h
    | ok k =>
      cases k with
      | statement x =>
        simp only [hs, Expansion.ask, Expansion.prepend, map_ok] at h ⊢
        obtain ⟨rest, h, rfl⟩ := h
        exact .statement (step_eq_statement.1 hs) (ih h)
      | nothing =>
        simp only [hs, Expansion.ask] at h ⊢
        obtain ⟨p, hp, hseen⟩ := step_eq_nothing.1 hs
        exact .again hp hseen (ih h)
      | file p l =>
        simp only [hs, Expansion.ask, Expansion.read] at h ⊢
        obtain ⟨literal, hf, hp, hnew⟩ := step_eq_file.1 hs
        cases hg : s.forms p l with
        | error e => simp [hg, Expansion.failed] at h
        | ok gs =>
          simp only [hg] at h ⊢
          exact .file ⟨literal, l, hf, hp⟩ hnew hg (ihFile p l hs gs h)

theorem expand_of_gives (h : s.Gives seen fs ss ps) :
    (s.expand seen fs).statements = .ok ss ∧ (s.expand seen fs).reads = ps := by
  induction h with
  | done => simp [Expansion.done]
  | statement hf _ ih =>
    obtain ⟨hss, hps⟩ := ih
    rw [expand_cons, step_eq_statement.2 hf]
    simp only [Expansion.ask, Expansion.prepend, hss, hps, Except.map, and_self]
  | again hp hseen _ ih =>
    rw [expand_cons, step_eq_nothing.2 ⟨_, hp, hseen⟩]
    exact ih
  | file hp hnew hg _ ih =>
    obtain ⟨literal, l, hf, hp⟩ := hp
    obtain ⟨hss, hps⟩ := ih
    rw [expand_cons, step_eq_file.2 ⟨literal, hf, hp, hnew⟩]
    simp only [Expansion.ask, Expansion.read, forms_elsewhere hg l, hss, hps, and_self]

/-! ## Every outcome -/

/-- Succeeds or not, an expansion reads one new file after the other. -/
theorem expand_reads (s : Sources) (seen : List Route) (fs : List PlacedForm) :
    s.Reads seen (s.expand seen fs).reads (s.expand seen fs).seen := by
  induction seen, fs using Sources.expand.induct s with
  | case1 seen =>
    rw [expand_nil]
    exact .stop
  | case2 seen f fs ih ihFile =>
    rw [expand_cons]
    cases hs : s.step seen f with
    | error e => exact .stop
    | ok k =>
      cases k with
      | statement x => exact ih
      | nothing => exact ih
      | file p l =>
        obtain ⟨literal, -, -, hnew⟩ := step_eq_file.1 hs
        dsimp only [Expansion.ask, Expansion.read]
        refine .enter hnew (unseen_lt_of_step hs) ?_
        cases hg : s.forms p l with
        | error e => exact .stop
        | ok gs => exact ihFile p l hs gs

theorem Reads.seen_eq (h : s.Reads seen ps after) : after = Place.routes ps ++ seen := by
  induction h with
  | stop => rfl
  | enter _ _ _ ih => rw [ih, Place.routes_cons, List.append_assoc, List.singleton_append]

theorem Reads.new (h : s.Reads seen ps after) : ∀ p ∈ ps, p.route ∉ seen := by
  induction h with
  | stop => simp
  | enter hp _ _ ih =>
    refine List.forall_mem_cons.2 ⟨hp, ?_⟩
    intro q hq hseen
    exact ih q hq (List.mem_cons_of_mem _ hseen)

theorem Reads.nodup (h : s.Reads seen ps after) : ps.Nodup := by
  induction h with
  | stop => exact .nil
  | enter _ _ rest ih =>
    refine List.nodup_cons.2 ⟨?_, ih⟩
    intro hp
    exact rest.new _ hp List.mem_cons_self

theorem Reads.length_le (h : s.Reads seen ps after) : ps.length ≤ s.unseen seen := by
  induction h with
  | stop => simp
  | enter _ fewer _ ih =>
    rw [List.length_cons]
    omega

end Sources

end TypeDomains
