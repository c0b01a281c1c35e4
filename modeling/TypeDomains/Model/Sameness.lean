import TypeDomains.Model

/-!
# Sameness of models

Two models are the same if they differ at most in locations. Two tuples have the same shape if
their own difference flags may differ as well.
-/

namespace TypeDomains

def TypeRef.same (r s : TypeRef) : Bool := r.name == s.name && r.arity == s.arity

def Element.same (e f : Element) : Bool :=
  e.identifier == f.identifier && e.tag == f.tag && e.type.same f.type

def Tuple.sameShape (t u : Tuple) : Bool :=
  t.tag == u.tag && t.kind == u.kind && t.elements.isEqv u.elements Element.same

def Tuple.same (t u : Tuple) : Bool := t.sameShape u && t.different == u.different

def Sum.same (s t : Sum) : Bool :=
  s.tag == t.tag && s.variants.isEqv t.variants Tuple.same && s.different == t.different

def DataType.same : DataType → DataType → Bool
  | builtin b, builtin c => b == c
  | tuple t, tuple u => t.same u
  | sum s, sum t => s.same t
  | _, _ => false

def Domain.same (d e : Domain) : Bool :=
  d.tag == e.tag && d.types.isEqv e.types DataType.same

def Ident.same (i j : Ident) : Bool := i.name == j.name

def SumChange.same (s t : SumChange) : Bool :=
  s.tag == t.tag && s.removed.isEqv t.removed Ident.same && s.added.isEqv t.added Tuple.same

def Permutation.same (p q : Permutation) : Bool :=
  p.tag == q.tag && p.base == q.base && p.excluded.isEqv q.excluded Ident.same &&
    p.included.isEqv q.included DataType.same && p.sums.isEqv q.sums SumChange.same

def Transform.same (t u : Transform) : Bool :=
  t.source == u.source && t.destination == u.destination

def Statement.same : Statement → Statement → Bool
  | domain d, domain e => d.same e
  | permutation p, permutation q => p.same q
  | transform t, transform u => t.same u
  | _, _ => false

def Universe.same (u v : Universe) : Bool :=
  u.statements.isEqv v.statements Statement.same

end TypeDomains
