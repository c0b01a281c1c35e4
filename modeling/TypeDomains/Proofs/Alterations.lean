import TypeDomains.Permuting
import TypeDomains.Proofs.Outcome

/-!
# Alterations

What an alteration does to the types of a base, one function at a time, and what survives it: a
property that types have and variants share passes from the base and from all that is added to the
types that come of both (`Permutation.forall_of_toDomain`).
-/

namespace TypeDomains

variable {types types' : List DataType} {variants variants' : List Tuple} {i : Ident}

theorem excludeType_ok : excludeType types i = .ok types' ↔
    ¬Builtin.isTag i.name ∧ (∃ t ∈ types, t.tag = i.name) ∧
      types.eraseP (·.tag == i.name) = types' := by
  unfold excludeType
  by_cases builtin : Builtin.isTag i.name
  · simp [builtin]
  by_cases present : types.any (·.tag == i.name)
  · have found : ∃ t ∈ types, t.tag = i.name := by simpa using present
    simp [builtin, present, found]
  · have absent : ¬∃ t ∈ types, t.tag = i.name := by simpa using present
    simp only [builtin, present, absent, Bool.false_eq_true, ↓reduceIte, reduceCtorEq, false_and,
      and_false]

theorem removeVariant_ok {sum : String} : removeVariant sum variants i = .ok variants' ↔
    (∃ v ∈ variants, v.tag = i.name) ∧ variants.eraseP (·.tag == i.name) = variants' := by
  unfold removeVariant
  by_cases present : variants.any (·.tag == i.name)
  · have found : ∃ v ∈ variants, v.tag = i.name := by simpa using present
    simp [present, found]
  · have absent : ¬∃ v ∈ variants, v.tag = i.name := by simpa using present
    simp only [present, absent, Bool.false_eq_true, ↓reduceIte, reduceCtorEq, false_and]

namespace SumChange

variable {c : SumChange} {s s' : Sum}

theorem change_ok : c.change s = .ok s' ↔
    ∃ kept, c.removed.foldlM (removeVariant c.tag) s.variants = .ok kept ∧
      { s with variants := kept ++ c.added } = s' := by
  simp only [change, bind_ok, pure_ok]

theorem changeFirst_cons_of_ne {t : DataType} (apart : t.tag ≠ c.tag) (types : List DataType) :
    c.changeFirst (t :: types) = (c.changeFirst types).map (t :: ·) := by
  rw [changeFirst.eq_def c (t :: types)]
  simp only [beq_iff_eq, apart, ↓reduceIte]
  cases c.changeFirst types <;> rfl

theorem changeFirst_cons_sum (tag : s.tag = c.tag) (types : List DataType) :
    c.changeFirst (.sum s :: types) = (c.change s).map (DataType.sum · :: types) := by
  rw [changeFirst, if_pos (by simpa [DataType.tag] using tag)]
  cases c.change s <;> rfl

theorem changeFirst_cons_of_not_sum {t : DataType} (tag : t.tag = c.tag) (kind : ∀ s, t ≠ .sum s)
    (types : List DataType) :
    c.changeFirst (t :: types) = .error ⟨.notASum c.tag, c.location⟩ := by
  cases t with
  | builtin b | tuple u =>
    rw [changeFirst, if_pos (by simpa using tag)]
    exact kind
  | sum s => exact absurd rfl (kind s)

/-- What stands in front of the first type of the tag plays no part. -/
theorem changeFirst_append {before : List DataType} (free : ∀ t ∈ before, t.tag ≠ c.tag)
    (types : List DataType) :
    c.changeFirst (before ++ types) = (c.changeFirst types).map (before ++ ·) := by
  induction before with
  | nil =>
    change c.changeFirst types = (c.changeFirst types).map id
    cases c.changeFirst types <;> rfl
  | cons t before ih =>
    obtain ⟨apart, free⟩ := List.forall_mem_cons.1 free
    rw [List.cons_append, changeFirst_cons_of_ne apart, ih free]
    cases c.changeFirst types <;> rfl

theorem changeFirst_of_missing (h : ∀ t ∈ types, t.tag ≠ c.tag) :
    c.changeFirst types = .error ⟨.sumMissing c.tag, c.location⟩ := by
  have whole := changeFirst_append h []
  rw [List.append_nil] at whole
  exact whole

/-- The first type of the tag is changed, and it has to be a sum. -/
theorem changeFirst_ok : c.changeFirst types = .ok types' ↔
    ∃ before s after s', types = before ++ .sum s :: after ∧ s.tag = c.tag ∧
      (∀ t ∈ before, t.tag ≠ c.tag) ∧ c.change s = .ok s' ∧
        before ++ .sum s' :: after = types' := by
  constructor
  · intro h
    cases found : types.find? (·.tag == c.tag) with
    | none =>
      have free : ∀ t ∈ types, t.tag ≠ c.tag := by simpa using found
      simp [changeFirst_of_missing free] at h
    | some t =>
      obtain ⟨tag, before, after, rfl, free⟩ := List.find?_eq_some_iff_append.1 found
      have tag : t.tag = c.tag := by simpa using tag
      have free : ∀ t ∈ before, t.tag ≠ c.tag := by simpa using free
      rw [changeFirst_append free] at h
      cases t with
      | builtin b | tuple u =>
        rw [changeFirst_cons_of_not_sum tag (by simp)] at h
        simp [Except.map] at h
      | sum s =>
        simp only [changeFirst_cons_sum tag, map_ok] at h
        obtain ⟨_, ⟨s', changed, rfl⟩, rfl⟩ := h
        exact ⟨before, s, after, s', rfl, tag, free, changed, rfl⟩
  · rintro ⟨before, s, after, s', rfl, tag, free, changed, rfl⟩
    rw [changeFirst_append free, changeFirst_cons_sum tag, changed]
    rfl

theorem apply_ok : c.apply types = .ok types' ↔
    ¬Builtin.isTag c.tag ∧ c.changeFirst types = .ok types' := by
  unfold apply
  by_cases builtin : Builtin.isTag c.tag
  · simp [builtin]
  · simp [builtin]

end SumChange

namespace Permutation

variable {p : Permutation} {ds : List Domain} {d : Domain}

theorem alterTypes_ok : p.alterTypes types = .ok types' ↔
    ∃ left, p.excluded.foldlM excludeType types = .ok left ∧
      ∃ changed, p.sums.foldlM SumChange.apply left = .ok changed ∧
        changed ++ p.included = types' := by
  simp only [alterTypes, bind_ok, pure_ok]

theorem toDomain_of_find {base : Domain} (found : Domain.find? ds p.base = some base) :
    p.toDomain ds = (p.alterTypes base.types).map (⟨p.tag, ·, p.location⟩) := by
  unfold toDomain
  simp only [found]
  cases p.alterTypes base.types <;> rfl

theorem toDomain_ok : p.toDomain ds = .ok d ↔
    ∃ base, Domain.find? ds p.base = some base ∧
      ∃ types, p.alterTypes base.types = .ok types ∧ ⟨p.tag, types, p.location⟩ = d := by
  unfold toDomain
  cases Domain.find? ds p.base with
  | none => simp
  | some base => simp only [bind_ok, pure_ok, Option.some.injEq, exists_eq_left']

end Permutation

/-! ## What survives -/

/-- What `P` says of a sum, it says by way of `V` of the variants, whichever they are. -/
structure Variantwise (P : DataType → Prop) (V : Tuple → Prop) : Prop where
  variants : ∀ s, P (.sum s) → ∀ v ∈ s.variants, V v
  exchange : ∀ s vs, P (.sum s) → (∀ v ∈ vs, V v) → P (.sum { s with variants := vs })

section Survival

variable {P : DataType → Prop} {V : Tuple → Prop}

theorem forall_of_excludeType (h : excludeType types i = .ok types') (ht : ∀ t ∈ types, P t) :
    ∀ t ∈ types', P t := by
  obtain ⟨-, -, rfl⟩ := excludeType_ok.1 h
  intro t kept
  exact ht t (List.eraseP_subset kept)

theorem forall_of_removeVariant {sum : String} (h : removeVariant sum variants i = .ok variants')
    (hv : ∀ v ∈ variants, V v) : ∀ v ∈ variants', V v := by
  obtain ⟨-, rfl⟩ := removeVariant_ok.1 h
  intro v kept
  exact hv v (List.eraseP_subset kept)

theorem SumChange.holds_of_change {c : SumChange} {s s' : Sum} (hPV : Variantwise P V)
    (h : c.change s = .ok s') (hs : P (.sum s)) (added : ∀ v ∈ c.added, V v) : P (.sum s') := by
  obtain ⟨kept, removal, rfl⟩ := change_ok.1 h
  have stays : ∀ v ∈ kept, V v :=
    of_foldlM (P := fun vs => ∀ v ∈ vs, V v) removal (hPV.variants s hs)
      fun _ _ _ _ hv h => forall_of_removeVariant h hv
  exact hPV.exchange s _ hs (List.forall_mem_append.2 ⟨stays, added⟩)

theorem SumChange.forall_of_apply {c : SumChange} (hPV : Variantwise P V)
    (h : c.apply types = .ok types') (ht : ∀ t ∈ types, P t) (added : ∀ v ∈ c.added, V v) :
    ∀ t ∈ types', P t := by
  obtain ⟨-, h⟩ := apply_ok.1 h
  obtain ⟨before, s, after, s', rfl, -, -, changed, rfl⟩ := changeFirst_ok.1 h
  obtain ⟨front, hs, back⟩ := by
    simpa only [List.forall_mem_append, List.forall_mem_cons] using ht
  have hs' := holds_of_change hPV changed hs added
  exact List.forall_mem_append.2 ⟨front, List.forall_mem_cons.2 ⟨hs', back⟩⟩

theorem Permutation.forall_of_toDomain {p : Permutation} {ds : List Domain} {d : Domain}
    (hPV : Variantwise P V) (h : p.toDomain ds = .ok d) (hds : ∀ b ∈ ds, ∀ t ∈ b.types, P t)
    (included : ∀ t ∈ p.included, P t) (added : ∀ c ∈ p.sums, ∀ v ∈ c.added, V v) :
    ∀ t ∈ d.types, P t := by
  obtain ⟨base, found, _, altered, rfl⟩ := toDomain_ok.1 h
  obtain ⟨left, exclusion, changed, change, rfl⟩ := alterTypes_ok.1 altered
  have hbase : ∀ t ∈ base.types, P t := hds base (List.mem_of_find?_eq_some found)
  have hleft : ∀ t ∈ left, P t :=
    of_foldlM (P := fun ts => ∀ t ∈ ts, P t) exclusion hbase
      fun _ _ _ _ ht h => forall_of_excludeType h ht
  have hchanged : ∀ t ∈ changed, P t :=
    of_foldlM (P := fun ts => ∀ t ∈ ts, P t) change hleft
      fun c hc _ _ ht h => SumChange.forall_of_apply hPV h ht (added c hc)
  exact List.forall_mem_append.2 ⟨hchanged, included⟩

end Survival

end TypeDomains
