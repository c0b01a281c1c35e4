import TypeDomains.Proofs.Comparison
import TypeDomains.Proofs.Unlocated

/-!
# Shapes

What is left of a model without its difference flags and, for tuples, without locations. Two
tuples have the same shape if they are equal in what is left, and a sum that meets another is
looked through for variants of the same shape.
-/

namespace TypeDomains

/-! ## Tuples -/

namespace Tuple

variable {t u : Tuple}

/-- The tuples are of two kinds, or their elements differ: in identifiers, field tags, types,
arities or order. Where anything stands does not count. -/
def DiffersFrom (t u : Tuple) : Prop :=
  t.kind ≠ u.kind ∨ t.elements.map Element.unlocated ≠ u.elements.map Element.unlocated

/-- What is left without the flag and without locations. -/
def shape (t : Tuple) : Tuple := (t.flag false).unlocated

theorem sameShape_self (t : Tuple) : t.sameShape t := by
  simp [sameShape, isEqv_iff_map_eq Element.same_iff]

theorem sameShape_iff_differsFrom : t.sameShape u ↔ u.tag = t.tag ∧ ¬t.DiffersFrom u := by
  simp [sameShape, DiffersFrom, isEqv_iff_map_eq Element.same_iff, and_assoc,
    eq_comm (a := u.tag)]

theorem sameShape_iff : t.sameShape u ↔ t.shape = u.shape := by
  simp [sameShape, shape, flag, unlocated, isEqv_iff_map_eq Element.same_iff, and_assoc]

theorem tag_of_sameShape (h : t.sameShape u) : u.tag = t.tag :=
  (sameShape_iff_differsFrom.1 h).1

theorem different_differenceFrom (tag : u.tag = t.tag) :
    (t.differenceFrom (some u)).different ↔ t.DiffersFrom u := by
  have same : t.sameShape u ↔ ¬t.DiffersFrom u := by
    rw [sameShape_iff_differsFrom, and_iff_right tag]
  rw [← not_iff_not, ← same]
  simp [differenceFrom, flag]

end Tuple

/-! ## Types -/

/-- The type with no flag set. -/
def DataType.unflagged : DataType → DataType
  | builtin b => builtin b
  | tuple t => tuple (t.flag false)
  | sum s => sum { s with variants := s.variants.map (·.flag false), different := false }

/-- Where tags are distinct, the search for the variant of that tag misses none of the shape. -/
theorem Sum.any_variant? {s : Sum} (h : (s.variants.map Tuple.tag).Nodup) (v : Tuple) :
    (s.variant? v.tag).any v.sameShape ↔ ∃ u ∈ s.variants, v.sameShape u := by
  rw [Option.any_eq_true]
  constructor
  · rintro ⟨u, found, same⟩
    exact ⟨u, List.mem_of_find?_eq_some found, same⟩
  · rintro ⟨u, hu, same⟩
    refine ⟨u, ?_, same⟩
    rw [← Tuple.tag_of_sameShape same]
    exact find?_of_nodup h hu

/-- A variant is flagged if the other sum has none of its shape. -/
theorem Sum.different_variant {s : Sum} (h : (s.variants.map Tuple.tag).Nodup) (v : Tuple) :
    (v.differenceFrom (s.variant? v.tag)).different ↔ ¬∃ u ∈ s.variants, v.sameShape u := by
  rw [← Sum.any_variant? h]
  simp [Tuple.differenceFrom, Tuple.flag]

theorem DataType.differenceFrom_of_not_sameKind {t u : DataType} (h : ¬t.sameKind u) :
    t.differenceFrom u = u.asDifferent := by
  cases t <;> cases u <;> first | rfl | simp [sameKind] at h

theorem DataType.unflagged_differenceFrom {t u : DataType} (h : t.sameKind u) :
    (t.differenceFrom u).unflagged = t.unflagged := by
  cases t with
  | builtin b => cases u <;> simp [sameKind] at h
  | tuple t =>
    cases u with
    | builtin _ | sum _ => simp [sameKind] at h
    | tuple u => rfl
  | sum s =>
    cases u with
    | builtin _ | tuple _ => simp [sameKind] at h
    | sum r =>
      simp only [differenceFrom, Sum.differenceFrom, unflagged, List.map_map]
      rfl

end TypeDomains
