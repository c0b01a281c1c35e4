import TypeDomains.DomainFault
import TypeDomains.Model

/-!
# Permuting a domain

The domain that a permutation stands for. Types are excluded first, then sums are changed, then
types are included. What stays keeps its order, and what is new stands behind it.
-/

namespace TypeDomains

/-- The types without the excluded one. -/
def excludeType (types : List DataType) (i : Ident) : Except DomainError (List DataType) :=
  if Builtin.isTag i.name then .error ⟨.builtinExcluded i.name, i.location⟩
  else if types.any (·.tag == i.name) then .ok (types.eraseP (·.tag == i.name))
  else .error ⟨.excludedMissing i.name, i.location⟩

/-- The variants of the sum `sum` without the removed one. -/
def removeVariant (sum : String) (variants : List Tuple) (i : Ident) :
    Except DomainError (List Tuple) :=
  if variants.any (·.tag == i.name) then .ok (variants.eraseP (·.tag == i.name))
  else .error ⟨.variantMissing sum i.name, i.location⟩

namespace SumChange

def change (c : SumChange) (s : Sum) : Except DomainError Sum := do
  return { s with variants := (← c.removed.foldlM (removeVariant c.tag) s.variants) ++ c.added }

/-- Changes the first type that has the tag of the sum. -/
def changeFirst (c : SumChange) : List DataType → Except DomainError (List DataType)
  | [] => .error ⟨.sumMissing c.tag, c.location⟩
  | t :: ts =>
    if t.tag == c.tag then
      match t with
      | .sum s => do return .sum (← c.change s) :: ts
      | _ => .error ⟨.notASum c.tag, c.location⟩
    else do return t :: (← changeFirst c ts)

def apply (types : List DataType) (c : SumChange) : Except DomainError (List DataType) :=
  if Builtin.isTag c.tag then .error ⟨.notASum c.tag, c.location⟩ else c.changeFirst types

end SumChange

namespace Permutation

/-- The types of the base with all alterations made to them. -/
def alterTypes (p : Permutation) (types : List DataType) : Except DomainError (List DataType) := do
  let types ← p.excluded.foldlM excludeType types
  let types ← p.sums.foldlM SumChange.apply types
  return types ++ p.included

/-- The domain itself, where `domains` are those it may build on. -/
def toDomain (p : Permutation) (domains : List Domain) : Except DomainError Domain :=
  match Domain.find? domains p.base with
  | none => .error ⟨.baseMissing p.tag p.base, p.location⟩
  | some base => do return ⟨p.tag, ← p.alterTypes base.types, p.location⟩

end Permutation

end TypeDomains
