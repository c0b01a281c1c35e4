import TypeDomains.Proofs.Shapes

/-!
# What sameness ignores

A model is what is left of it without locations, together with its locations: to forget them loses
all of them and nothing else (`Forgets`). Models that are the same are thus equal but for locations,
from references up to universes, and tuples of the same shape are so but for their own flags as well
(`sameness_ignores_locations`).
-/

namespace TypeDomains

/-! ## Locations at every depth -/

def TypeRef.locations (r : TypeRef) : List Location := [r.location]

def Element.locations (e : Element) : List Location := e.location :: e.type.locations

def Tuple.locations (t : Tuple) : List Location :=
  t.location :: t.elements.flatMap Element.locations

def Sum.locations (s : Sum) : List Location :=
  s.location :: s.variants.flatMap Tuple.locations

def DataType.locations : DataType → List Location
  | builtin _ => []
  | tuple t => t.locations
  | sum s => s.locations

def Domain.locations (d : Domain) : List Location :=
  d.location :: d.types.flatMap DataType.locations

def Ident.locations (i : Ident) : List Location := [i.location]

def SumChange.locations (c : SumChange) : List Location :=
  c.location :: (c.removed.flatMap Ident.locations ++ c.added.flatMap Tuple.locations)

def Permutation.locations (p : Permutation) : List Location :=
  p.location :: (p.excluded.flatMap Ident.locations ++ (p.included.flatMap DataType.locations ++
    p.sums.flatMap SumChange.locations))

def Transform.locations (t : Transform) : List Location := [t.location]

def Statement.locations : Statement → List Location
  | domain d => d.locations
  | permutation p => p.locations
  | transform t => t.locations

def Universe.locations (u : Universe) : List Location :=
  u.statements.flatMap Statement.locations

/-! ## Forgetting them -/

section Forgets

variable {α : Type} {erase : α → α} {locations : α → List Location} {a b : α}

/-- To erase a value makes all its locations unknown, and what is left makes up the value with
them. -/
structure Forgets (erase : α → α) (locations : α → List Location) : Prop where
  unknown (a : α) : locations (erase a) = List.replicate (locations a).length .unknown
  rest {a b : α} : erase a = erase b → locations a = locations b → a = b

/-- What is left tells how many locations there were. -/
theorem Forgets.length_eq (h : Forgets erase locations) (rest : erase a = erase b) :
    (locations a).length = (locations b).length := by
  have ha := congrArg List.length (h.unknown a)
  have hb := congrArg List.length (h.unknown b)
  rw [List.length_replicate] at ha hb
  rw [← ha, ← hb, rest]

theorem Forgets.list (h : Forgets erase locations) :
    Forgets (List.map erase) (List.flatMap locations) where
  unknown as := by
    induction as with
    | nil => rfl
    | cons a as ih =>
      rw [List.map_cons, List.flatMap_cons, List.flatMap_cons, ih, h.unknown,
        List.replicate_append_replicate, List.length_append]
  rest {as bs} rest same := by
    induction as generalizing bs with
    | nil => exact (List.map_eq_nil_iff.1 rest.symm).symm
    | cons a as ih =>
      obtain ⟨b, bs, rfl, first, behind⟩ := List.map_eq_cons_iff.1 rest.symm
      rw [List.flatMap_cons, List.flatMap_cons] at same
      obtain ⟨here, there⟩ := List.append_inj same (h.length_eq first.symm)
      rw [h.rest first.symm here, ih behind.symm there]

end Forgets

theorem TypeRef.forgets : Forgets unlocated locations where
  unknown _ := rfl
  rest {r s} rest same := by
    cases r
    cases s
    simp_all [unlocated, locations]

theorem Element.forgets : Forgets unlocated locations where
  unknown _ := rfl
  rest {e f} rest same := by
    cases e
    cases f
    simp only [unlocated, mk.injEq, and_true] at rest
    obtain ⟨here, inside⟩ := List.cons.inj same
    obtain ⟨rfl, rfl, type⟩ := rest
    cases here
    rw [TypeRef.forgets.rest type inside]

theorem Tuple.forgets : Forgets unlocated locations where
  unknown t := by
    rw [locations, unlocated, Element.forgets.list.unknown]
    rfl
  rest {t u} rest same := by
    cases t
    cases u
    simp only [unlocated, mk.injEq, and_true] at rest
    obtain ⟨here, inside⟩ := List.cons.inj same
    obtain ⟨rfl, rfl, elements, rfl⟩ := rest
    cases here
    rw [Element.forgets.list.rest elements inside]

theorem Sum.forgets : Forgets unlocated locations where
  unknown s := by
    rw [locations, unlocated, Tuple.forgets.list.unknown]
    rfl
  rest {s t} rest same := by
    cases s
    cases t
    simp only [unlocated, mk.injEq, and_true] at rest
    obtain ⟨here, inside⟩ := List.cons.inj same
    obtain ⟨rfl, variants, rfl⟩ := rest
    cases here
    rw [Tuple.forgets.list.rest variants inside]

theorem DataType.forgets : Forgets unlocated locations where
  unknown t := by
    cases t with
    | builtin b => rfl
    | tuple t => exact Tuple.forgets.unknown t
    | sum s => exact Sum.forgets.unknown s
  rest {t u} rest same := by
    cases t <;> cases u <;> simp only [unlocated, reduceCtorEq] at rest
    case builtin.builtin => exact rest
    case tuple.tuple => exact congrArg tuple (Tuple.forgets.rest (tuple.inj rest) same)
    case sum.sum => exact congrArg sum (Sum.forgets.rest (sum.inj rest) same)

theorem Domain.forgets : Forgets unlocated locations where
  unknown d := by
    rw [locations, unlocated, DataType.forgets.list.unknown]
    rfl
  rest {d e} rest same := by
    cases d
    cases e
    simp only [unlocated, mk.injEq, and_true] at rest
    obtain ⟨here, inside⟩ := List.cons.inj same
    obtain ⟨rfl, types⟩ := rest
    cases here
    rw [DataType.forgets.list.rest types inside]

theorem Ident.forgets : Forgets unlocated locations where
  unknown _ := rfl
  rest {i j} rest same := by
    cases i
    cases j
    simp_all [unlocated, locations]

theorem SumChange.forgets : Forgets unlocated locations where
  unknown c := by
    rw [locations, unlocated, Ident.forgets.list.unknown, Tuple.forgets.list.unknown,
      List.replicate_append_replicate, ← List.length_append]
    rfl
  rest {c d} rest same := by
    cases c
    cases d
    simp only [unlocated, mk.injEq, and_true] at rest
    obtain ⟨here, inside⟩ := List.cons.inj same
    obtain ⟨rfl, removed, added⟩ := rest
    obtain ⟨first, second⟩ := List.append_inj inside (Ident.forgets.list.length_eq removed)
    cases here
    rw [Ident.forgets.list.rest removed first, Tuple.forgets.list.rest added second]

theorem Permutation.forgets : Forgets unlocated locations where
  unknown p := by
    rw [locations, unlocated, Ident.forgets.list.unknown, DataType.forgets.list.unknown,
      SumChange.forgets.list.unknown, List.replicate_append_replicate, ← List.length_append,
      List.replicate_append_replicate, ← List.length_append]
    rfl
  rest {p q} rest same := by
    cases p
    cases q
    simp only [unlocated, mk.injEq, and_true] at rest
    obtain ⟨here, inside⟩ := List.cons.inj same
    obtain ⟨rfl, rfl, excluded, included, sums⟩ := rest
    obtain ⟨first, others⟩ := List.append_inj inside (Ident.forgets.list.length_eq excluded)
    obtain ⟨second, third⟩ := List.append_inj others (DataType.forgets.list.length_eq included)
    cases here
    rw [Ident.forgets.list.rest excluded first, DataType.forgets.list.rest included second,
      SumChange.forgets.list.rest sums third]

theorem Transform.forgets : Forgets unlocated locations where
  unknown _ := rfl
  rest {t u} rest same := by
    cases t
    cases u
    simp_all [unlocated, locations]

theorem Statement.forgets : Forgets unlocated locations where
  unknown x := by
    cases x with
    | domain d => exact Domain.forgets.unknown d
    | permutation p => exact Permutation.forgets.unknown p
    | transform t => rfl
  rest {x y} rest same := by
    cases x <;> cases y <;> simp only [unlocated, reduceCtorEq] at rest
    case domain.domain =>
      exact congrArg domain (Domain.forgets.rest (domain.inj rest) same)
    case permutation.permutation =>
      exact congrArg permutation (Permutation.forgets.rest (permutation.inj rest) same)
    case transform.transform =>
      exact congrArg transform (Transform.forgets.rest (transform.inj rest) same)

theorem Universe.forgets : Forgets unlocated locations where
  unknown u := Statement.forgets.list.unknown u.statements
  rest rest same :=
    congrArg mk (Statement.forgets.list.rest (congrArg statements rest) same)

/-! ## Sameness -/

/-- The comparison is equality of what is left without locations. -/
structure IgnoresLocations {α : Type} (same : α → α → Bool) (erase : α → α)
    (locations : α → List Location) : Prop extends Forgets erase locations where
  same_iff (a b : α) : same a b ↔ erase a = erase b

/-- **Sameness is equality but for locations.** Two models, of whatever kind, are the same if and
only if they are equal once all locations in them are forgotten; as nothing else is forgotten, the
same models with the same locations are equal. Two tuples have the same shape if and only if they
are equal once their locations and their own flags are forgotten; with the same flag and the same
locations they are equal. -/
theorem sameness_ignores_locations :
    IgnoresLocations TypeRef.same TypeRef.unlocated TypeRef.locations ∧
    IgnoresLocations Element.same Element.unlocated Element.locations ∧
    IgnoresLocations Tuple.same Tuple.unlocated Tuple.locations ∧
    IgnoresLocations Sum.same Sum.unlocated Sum.locations ∧
    IgnoresLocations DataType.same DataType.unlocated DataType.locations ∧
    IgnoresLocations Domain.same Domain.unlocated Domain.locations ∧
    IgnoresLocations Ident.same Ident.unlocated Ident.locations ∧
    IgnoresLocations SumChange.same SumChange.unlocated SumChange.locations ∧
    IgnoresLocations Permutation.same Permutation.unlocated Permutation.locations ∧
    IgnoresLocations Transform.same Transform.unlocated Transform.locations ∧
    IgnoresLocations Statement.same Statement.unlocated Statement.locations ∧
    IgnoresLocations Universe.same Universe.unlocated Universe.locations ∧
    ∀ t u : Tuple, (t.sameShape u ↔ (t.flag false).unlocated = (u.flag false).unlocated) ∧
      (t = u ↔ t.sameShape u ∧ t.different = u.different ∧ t.locations = u.locations) := by
  refine ⟨⟨TypeRef.forgets, TypeRef.same_iff⟩, ⟨Element.forgets, Element.same_iff⟩,
    ⟨Tuple.forgets, Tuple.same_iff⟩, ⟨Sum.forgets, Sum.same_iff⟩,
    ⟨DataType.forgets, DataType.same_iff⟩, ⟨Domain.forgets, Domain.same_iff⟩,
    ⟨Ident.forgets, Ident.same_iff⟩, ⟨SumChange.forgets, SumChange.same_iff⟩,
    ⟨Permutation.forgets, Permutation.same_iff⟩, ⟨Transform.forgets, Transform.same_iff⟩,
    ⟨Statement.forgets, Statement.same_iff⟩, ⟨Universe.forgets, Universe.same_iff⟩, ?_⟩
  intro t u
  refine ⟨Tuple.sameShape_iff, ?_, ?_⟩
  · rintro rfl
    exact ⟨t.sameShape_self, rfl, rfl⟩
  · rintro ⟨shape, flag, locations⟩
    have same : t.same u := by simp [Tuple.same, shape, flag]
    exact Tuple.forgets.rest ((Tuple.same_iff t u).1 same) locations

end TypeDomains
