import TypeDomains.Model.Sameness
import TypeDomains.Model.Writing
import TypeDomains.Proofs.Lists
import TypeDomains.SExpr

/-!
# Models without locations

What is left of a model when its locations are forgotten. Two models are the same if nothing else
tells them apart (`Universe.same_iff`), and what is written of a model does not tell where it stood
(`Universe.written_unlocated`).
-/

namespace TypeDomains

/-! ## Forgetting locations -/

def TypeRef.unlocated (r : TypeRef) : TypeRef := { r with location := .unknown }

def Element.unlocated (e : Element) : Element :=
  { e with type := e.type.unlocated, location := .unknown }

def Tuple.unlocated (t : Tuple) : Tuple :=
  { t with elements := t.elements.map Element.unlocated, location := .unknown }

def Sum.unlocated (s : Sum) : Sum :=
  { s with variants := s.variants.map Tuple.unlocated, location := .unknown }

def DataType.unlocated : DataType → DataType
  | builtin b => builtin b
  | tuple t => tuple t.unlocated
  | sum s => sum s.unlocated

def Domain.unlocated (d : Domain) : Domain :=
  { d with types := d.types.map DataType.unlocated, location := .unknown }

def Ident.unlocated (i : Ident) : Ident := { i with location := .unknown }

def SumChange.unlocated (s : SumChange) : SumChange where
  tag := s.tag
  removed := s.removed.map Ident.unlocated
  added := s.added.map Tuple.unlocated
  location := .unknown

def Permutation.unlocated (p : Permutation) : Permutation where
  tag := p.tag
  base := p.base
  excluded := p.excluded.map Ident.unlocated
  included := p.included.map DataType.unlocated
  sums := p.sums.map SumChange.unlocated
  location := .unknown

def Transform.unlocated (t : Transform) : Transform := { t with location := .unknown }

def Statement.unlocated : Statement → Statement
  | domain d => domain d.unlocated
  | permutation p => permutation p.unlocated
  | transform t => transform t.unlocated

def Universe.unlocated (u : Universe) : Universe := ⟨u.statements.map Statement.unlocated⟩

/-! ## Sameness -/

theorem TypeRef.same_iff (r s : TypeRef) : r.same s ↔ r.unlocated = s.unlocated := by
  simp [same, unlocated]

theorem Element.same_iff (e f : Element) : e.same f ↔ e.unlocated = f.unlocated := by
  simp [same, unlocated, TypeRef.same_iff, and_assoc]

theorem Tuple.same_iff (t u : Tuple) : t.same u ↔ t.unlocated = u.unlocated := by
  simp [same, sameShape, unlocated, isEqv_iff_map_eq Element.same_iff, and_assoc]

theorem Sum.same_iff (s t : Sum) : s.same t ↔ s.unlocated = t.unlocated := by
  simp [same, unlocated, isEqv_iff_map_eq Tuple.same_iff, and_assoc]

theorem DataType.same_iff (t u : DataType) : t.same u ↔ t.unlocated = u.unlocated := by
  cases t <;> cases u <;> simp [same, unlocated, Tuple.same_iff, Sum.same_iff]

theorem Domain.same_iff (d e : Domain) : d.same e ↔ d.unlocated = e.unlocated := by
  simp [same, unlocated, isEqv_iff_map_eq DataType.same_iff]

theorem Ident.same_iff (i j : Ident) : i.same j ↔ i.unlocated = j.unlocated := by
  simp [same, unlocated]

theorem SumChange.same_iff (s t : SumChange) : s.same t ↔ s.unlocated = t.unlocated := by
  simp [same, unlocated, isEqv_iff_map_eq Ident.same_iff, isEqv_iff_map_eq Tuple.same_iff,
    and_assoc]

theorem Permutation.same_iff (p q : Permutation) : p.same q ↔ p.unlocated = q.unlocated := by
  simp [same, unlocated, isEqv_iff_map_eq Ident.same_iff, isEqv_iff_map_eq DataType.same_iff,
    isEqv_iff_map_eq SumChange.same_iff, and_assoc]

theorem Transform.same_iff (t u : Transform) : t.same u ↔ t.unlocated = u.unlocated := by
  simp [same, unlocated]

theorem Statement.same_iff (x y : Statement) : x.same y ↔ x.unlocated = y.unlocated := by
  cases x <;> cases y <;>
    simp [same, unlocated, Domain.same_iff, Permutation.same_iff, Transform.same_iff]

theorem Universe.same_iff (u v : Universe) : u.same v ↔ u.unlocated = v.unlocated := by
  simp [same, unlocated, isEqv_iff_map_eq Statement.same_iff]

/-! ## Writing -/

@[simp]
theorem Element.written_unlocated (kind : TupleKind) (e : Element) :
    e.unlocated.written kind = e.written kind := rfl

@[simp]
theorem Tuple.kind_unlocated (t : Tuple) : t.unlocated.kind = t.kind := rfl

@[simp]
theorem Tuple.body_unlocated (t : Tuple) : t.unlocated.body = t.body := by
  simp [body, unlocated, List.flatMap_map]

@[simp]
theorem Tuple.writtenAsVariants_unlocated (depth : Nat) (ts : List Tuple) :
    writtenAsVariants depth (ts.map unlocated) = writtenAsVariants depth ts := by
  simp [writtenAsVariants, writtenAsVariant, List.flatMap_map]

theorem DataType.written_tuple (depth : Nat) (t : Tuple) :
    (tuple t).written depth = '(' :: t.kind.keyword.toList ++ ' ' :: t.body ++ [')'] := rfl

theorem DataType.written_sum (depth : Nat) (s : Sum) :
    (sum s).written depth = "(sum ".toList ++ Name.written s.tag ++
      Tuple.writtenAsVariants (depth + 1) s.variants ++ [')'] := rfl

@[simp]
theorem DataType.written_unlocated (depth : Nat) (t : DataType) :
    t.unlocated.written depth = t.written depth := by
  cases t with
  | builtin b => rfl
  | tuple t => simp only [unlocated, written_tuple, Tuple.body_unlocated, Tuple.kind_unlocated]
  | sum s =>
    simp only [unlocated, Sum.unlocated, written_sum, Tuple.writtenAsVariants_unlocated]

@[simp]
theorem DataType.writtenAll_unlocated (depth : Nat) (ts : List DataType) :
    writtenAll depth (ts.map unlocated) = writtenAll depth ts := by
  simp [writtenAll, List.flatMap_map]

@[simp]
theorem Ident.writtenAll_unlocated (is : List Ident) :
    writtenAll (is.map unlocated) = writtenAll is := by
  simp [writtenAll, List.flatMap_map, unlocated]

@[simp]
theorem SumChange.written_unlocated (s : SumChange) : s.unlocated.written = s.written := by
  unfold written unlocated
  rw [Ident.writtenAll_unlocated, Tuple.writtenAsVariants_unlocated]

@[simp]
theorem Domain.written_unlocated (d : Domain) : d.unlocated.written = d.written := by
  unfold written unlocated
  rw [DataType.writtenAll_unlocated]

@[simp]
theorem Permutation.written_unlocated (p : Permutation) : p.unlocated.written = p.written := by
  unfold written unlocated
  rw [Ident.writtenAll_unlocated, DataType.writtenAll_unlocated, List.flatMap_map]
  simp only [SumChange.written_unlocated]

@[simp]
theorem Statement.written_unlocated (x : Statement) : x.unlocated.written = x.written := by
  cases x with
  | domain d => exact d.written_unlocated
  | permutation p => exact p.written_unlocated
  | transform t => rfl

theorem Universe.written_unlocated (u : Universe) : u.unlocated.written = u.written := by
  simp [written, unlocated, Function.comp_def]

theorem Universe.written_of_same {u v : Universe} (h : u.same v) : u.written = v.written := by
  rw [← written_unlocated u, (same_iff u v).1 h, written_unlocated]

/-! ## Values -/

/-- The value with all locations in it forgotten. -/
def SExpr.unlocated : SExpr → SExpr
  | atom a names _ => atom a names .unknown
  | list es names _ => list (es.map unlocated) names .unknown

namespace SExpr

@[simp]
theorem unlocated_atom (a : Atom) (names : List String) (l : Location) :
    (atom a names l).unlocated = atom a names .unknown := by
  rw [unlocated]

@[simp]
theorem unlocated_list (es : List SExpr) (names : List String) (l : Location) :
    (list es names l).unlocated = list (es.map unlocated) names .unknown := by
  rw [unlocated]

end SExpr

end TypeDomains
