import TypeDomains.Model.Sameness

/-!
# Differences between domains

What a transform has to look at: the types of one domain that another has too, flagged where the
two are not alike.
-/

namespace TypeDomains

def Tuple.flag (t : Tuple) (different : Bool) : Tuple := { t with different := different }

/-- A tuple differs unless the other side has one of its shape. -/
def Tuple.differenceFrom (t : Tuple) (other : Option Tuple) : Tuple :=
  t.flag (!other.any t.sameShape)

/-- Variants that only the destination has do not count. -/
def Sum.differenceFrom (s destination : Sum) : Sum :=
  let variants := s.variants.map fun v => v.differenceFrom (destination.variant? v.tag)
  { s with variants := variants, different := variants.any (·.different) }

/-- Types of two kinds differ, and the destination's is the one to be produced. -/
def DataType.differenceFrom : DataType → DataType → DataType
  | tuple t, tuple u => tuple (t.differenceFrom (some u))
  | sum s, sum t => sum (s.differenceFrom t)
  | _, destination => destination.asDifferent

/-- The types that both domains have, in the order of the first. -/
def Domain.differenceFrom (d destination : Domain) : Domain :=
  { d with types := d.types.filterMap fun t =>
      (destination.types.find? (·.tag == t.tag)).map t.differenceFrom }

end TypeDomains
