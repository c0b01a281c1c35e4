import TypeDomains.Proofs.Lists

/-!
# Outcomes

When a computation that may fail succeeds: its parts do, one after the other. What a given one comes
to is decidable. And what may come of it, be it a result or an error (`ComesTo`).
-/

namespace TypeDomains

variable {ε α β σ : Type}

theorem bind_ok {x : Except ε α} {f : α → Except ε β} {b : β} :
    x >>= f = .ok b ↔ ∃ a, x = .ok a ∧ f a = .ok b := by
  cases x <;> simp [bind, Except.bind]

theorem bind_error {x : Except ε α} {f : α → Except ε β} {e : ε} :
    x >>= f = .error e ↔ x = .error e ∨ ∃ a, x = .ok a ∧ f a = .error e := by
  cases x <;> simp [bind, Except.bind]

theorem bind_unit_ok {x : Except ε Unit} {f : Unit → Except ε β} {b : β} :
    x >>= f = .ok b ↔ x = .ok () ∧ f () = .ok b := by
  cases x <;> simp [bind, Except.bind]

theorem pure_ok {a b : α} : (pure a : Except ε α) = .ok b ↔ a = b := by
  simp [pure, Except.pure]

theorem map_ok {x : Except ε α} {f : α → β} {b : β} :
    x.map f = .ok b ↔ ∃ a, x = .ok a ∧ f a = b := by
  cases x <;> simp [Except.map]

theorem mapError_ok {ε' : Type} {x : Except ε α} {f : ε → ε'} {a : α} :
    x.mapError f = .ok a ↔ x = .ok a := by
  cases x <;> simp [Except.mapError]

theorem mapM_ok {f : α → Except ε β} {as : List α} {bs : List β} :
    as.mapM f = .ok bs ↔ List.Forall₂ (fun a b => f a = .ok b) as bs := by
  induction as generalizing bs with
  | nil => simp [pure, Except.pure, eq_comm]
  | cons a as ih =>
    simp only [List.mapM_cons, bind_ok, pure_ok, List.forall₂_cons_left_iff, ih]
    constructor
    · rintro ⟨b, hb, bs, hbs, rfl⟩
      exact ⟨b, bs, hb, hbs, rfl⟩
    · rintro ⟨b, bs, hb, hbs, rfl⟩
      exact ⟨b, hb, bs, hbs, rfl⟩

theorem mapM_of_forall {f : α → Except ε β} {g : α → β} {as : List α}
    (h : ∀ a ∈ as, f a = .ok (g a)) : as.mapM f = .ok (as.map g) :=
  mapM_ok.2 (List.forall₂_map_right_iff.2 (List.forall₂_same.2 h))

/-- The results are images of the members, two that are equal having one result. -/
theorem exists_map_of_mapM [Nonempty β] {f : α → Except ε β} {as : List α} {bs : List β}
    (h : as.mapM f = .ok bs) : ∃ g : α → β, (∀ a ∈ as, f a = .ok (g a)) ∧ as.map g = bs := by
  have result (a : α) : ∃ b, a ∈ as → f a = .ok b := by
    by_cases ha : a ∈ as
    · obtain ⟨b, -, hb⟩ := exists_of_forall₂_left (mapM_ok.1 h) ha
      exact ⟨b, fun _ => hb⟩
    · exact ⟨Classical.arbitrary β, fun member => absurd member ha⟩
  choose g hg using result
  have images := mapM_of_forall hg
  rw [h] at images
  exact ⟨g, hg, (Except.ok.inj images).symm⟩

theorem forM_ok {f : α → Except ε Unit} {as : List α} :
    as.forM f = .ok () ↔ ∀ a ∈ as, f a = .ok () := by
  induction as with
  | nil => simp [pure, Except.pure]
  | cons a as ih =>
    rw [List.forM_eq_forM] at ih ⊢
    simp only [List.forM_cons, bind_unit_ok, ih, List.forall_mem_cons]

theorem forall_of_mapM {f : α → Except ε β} {P : β → Prop} {as : List α} {bs : List β}
    (h : as.mapM f = .ok bs) (hf : ∀ a b, f a = .ok b → P b) : ∀ b ∈ bs, P b := by
  induction mapM_ok.1 h with
  | nil => simp
  | cons hab _ ih => exact List.forall_mem_cons.2 ⟨hf _ _ hab, ih (mapM_ok.2 ‹_›)⟩

/-- A run fails at the first step that does. -/
theorem foldlM_error {f : σ → α → Except ε σ} {as : List α} {s : σ} {e : ε} :
    as.foldlM f s = .error e ↔ ∃ before a after t, as = before ++ a :: after ∧
      before.foldlM f s = .ok t ∧ f t a = .error e := by
  constructor
  · intro h
    induction as generalizing s with
    | nil => simp [pure, Except.pure] at h
    | cons a as ih =>
      rw [List.foldlM_cons] at h
      cases first : f s a with
      | error e' =>
        rw [first] at h
        cases h
        exact ⟨[], a, as, s, rfl, rfl, first⟩
      | ok t =>
        rw [first] at h
        obtain ⟨before, b, after, u, rfl, run, fails⟩ := ih h
        refine ⟨a :: before, b, after, u, rfl, ?_, fails⟩
        rw [List.foldlM_cons, first]
        exact run
  · rintro ⟨before, a, after, t, rfl, run, fails⟩
    rw [List.foldlM_append, run]
    change (a :: after).foldlM f t = _
    rw [List.foldlM_cons, fails]
    rfl

/-- A list fails with the first of its members that does. -/
theorem mapM_error {f : α → Except ε β} {as : List α} {e : ε} :
    as.mapM f = .error e ↔ ∃ before a after, as = before ++ a :: after ∧
      (∀ b ∈ before, ∃ c, f b = .ok c) ∧ f a = .error e := by
  constructor
  · intro h
    induction as with
    | nil => simp [pure, Except.pure] at h
    | cons a as ih =>
      rw [List.mapM_cons] at h
      rcases bind_error.1 h with first | ⟨c, first, h⟩
      · exact ⟨[], a, as, rfl, by simp, first⟩
      rcases bind_error.1 h with rest | ⟨cs, -, done⟩
      · obtain ⟨before, b, after, rfl, fine, fails⟩ := ih rest
        exact ⟨a :: before, b, after, rfl, List.forall_mem_cons.2 ⟨⟨c, first⟩, fine⟩, fails⟩
      · cases done
  · rintro ⟨before, a, after, rfl, fine, fails⟩
    induction before with
    | nil =>
      rw [List.nil_append, List.mapM_cons, fails]
      rfl
    | cons b before ih =>
      obtain ⟨⟨c, first⟩, fine⟩ := List.forall_mem_cons.1 fine
      rw [List.cons_append, List.mapM_cons, first]
      change (before ++ a :: after).mapM f >>= _ = _
      rw [ih fine]
      rfl

/-- Where each step adds what its value asks for, a run adds, in order, what all of them ask for. -/
theorem foldlM_ok_of_step {δ : Type} {f : σ → α → Except ε σ} {R : α → δ → Prop} {add : σ → δ → σ}
    (step : ∀ s a t, f s a = .ok t ↔ ∃ d, R a d ∧ add s d = t) {as : List α} {s t : σ} :
    as.foldlM f s = .ok t ↔ ∃ ds, List.Forall₂ R as ds ∧ ds.foldl add s = t := by
  induction as generalizing s with
  | nil => simp [pure, Except.pure]
  | cons a as ih =>
    simp only [List.foldlM_cons, bind_ok, step, ih, List.forall₂_cons_left_iff]
    constructor
    · rintro ⟨_, ⟨d, hd, rfl⟩, ds, hds, rfl⟩
      exact ⟨d :: ds, ⟨d, ds, hd, hds, rfl⟩, rfl⟩
    · rintro ⟨_, ⟨d, ds, hd, hds, rfl⟩, rfl⟩
      exact ⟨_, ⟨d, hd, rfl⟩, ds, hds, rfl⟩

/-- What holds at the start and survives each step holds in the end. -/
theorem of_foldlM {f : σ → α → Except ε σ} {P : σ → Prop} {as : List α} {s t : σ}
    (h : as.foldlM f s = .ok t) (start : P s)
    (step : ∀ a ∈ as, ∀ s t, P s → f s a = .ok t → P t) : P t := by
  induction as generalizing s with
  | nil =>
    cases h
    exact start
  | cons a as ih =>
    rw [List.foldlM_cons] at h
    obtain ⟨s', hs', h⟩ := bind_ok.1 h
    obtain ⟨first, rest⟩ := List.forall_mem_cons.1 step
    exact ih h (first s s' start hs') rest

/-! ## Deciding what comes of it

What a given computation comes to is decided by running it. -/

instance decidableOkWith {x : Except ε α} {P : α → Prop} [DecidablePred P] :
    Decidable (∃ a, x = .ok a ∧ P a) :=
  match x with
  | .ok a => decidable_of_iff (P a) (by simp)
  | .error _ => isFalse (by simp)

instance decidableErrorWith {x : Except ε α} {P : ε → Prop} [DecidablePred P] :
    Decidable (∃ e, x = .error e ∧ P e) :=
  match x with
  | .ok _ => isFalse (by simp)
  | .error e => decidable_of_iff (P e) (by simp)

instance decidableOk {x : Except ε α} : Decidable (∃ a, x = .ok a) :=
  match x with
  | .ok a => isTrue ⟨a, rfl⟩
  | .error _ => isFalse (by simp)

/-! ## Either outcome -/

/-- The result has the property `P`, or the error the property `E`. -/
def ComesTo (E : ε → Prop) (P : α → Prop) : Except ε α → Prop
  | .ok a => P a
  | .error e => E e

namespace ComesTo

variable {E : ε → Prop} {P : α → Prop} {Q : β → Prop} {x : Except ε α}

theorem of_ok {a : α} (h : ComesTo E P x) (hx : x = .ok a) : P a := by
  subst hx
  exact h

theorem of_error {e : ε} (h : ComesTo E P x) (hx : x = .error e) : E e := by
  subst hx
  exact h

theorem mono {E' : ε → Prop} {P' : α → Prop} (h : ComesTo E P x) (hE : ∀ e, E e → E' e)
    (hP : ∀ a, P a → P' a) : ComesTo E' P' x := by
  cases x with
  | ok a => exact hP a h
  | error e => exact hE e h

theorem bind {f : α → Except ε β} (h : ComesTo E P x) (hf : ∀ a, P a → ComesTo E Q (f a)) :
    ComesTo E Q (x >>= f) := by
  cases x with
  | ok a => exact hf a h
  | error e => exact h

theorem map {f : α → β} (h : ComesTo E P x) (hf : ∀ a, P a → Q (f a)) : ComesTo E Q (x.map f) := by
  cases x with
  | ok a => exact hf a h
  | error e => exact h

theorem mapM {f : α → Except ε β} {as : List α} (hf : ∀ a ∈ as, ComesTo E Q (f a)) :
    ComesTo E (fun bs => ∀ b ∈ bs, Q b) (as.mapM f) := by
  induction as with
  | nil =>
    rw [List.mapM_nil]
    intro b hb
    simp at hb
  | cons a as ih =>
    obtain ⟨ha, has⟩ := List.forall_mem_cons.1 hf
    rw [List.mapM_cons]
    exact ha.bind fun b hb => (ih has).bind fun bs hbs => List.forall_mem_cons.2 ⟨hb, hbs⟩

theorem foldlM {S : σ → Prop} {f : σ → α → Except ε σ} {as : List α} {s : σ} (start : S s)
    (hf : ∀ a ∈ as, ∀ s, S s → ComesTo E S (f s a)) : ComesTo E S (as.foldlM f s) := by
  induction as generalizing s with
  | nil => exact start
  | cons a as ih =>
    obtain ⟨ha, has⟩ := List.forall_mem_cons.1 hf
    rw [List.foldlM_cons]
    exact (ha s start).bind fun t ht => ih ht has

theorem forM {f : α → Except ε Unit} {U : Unit → Prop} {as : List α} (done : U ())
    (hf : ∀ a ∈ as, ComesTo E U (f a)) : ComesTo E U (as.forM f) := by
  induction as with
  | nil => exact done
  | cons a as ih =>
    obtain ⟨ha, has⟩ := List.forall_mem_cons.1 hf
    exact ha.bind fun _ _ => ih has

end ComesTo

end TypeDomains
