import TypeDomains.Location

/-!
# Faults of domains

What can be wrong with a universe once it has been read.
-/

namespace TypeDomains

inductive DomainFault where
  | emptyUniverse
  | domainDefinedTwice (name : String)
  | nameUsedTwice (name : String)
  | undefinedType (name : String)
  | notAType (name : String)
  | requiredAfterVariadic (element : String)
  | optionalAfterVariadic (element : String)
  | secondVariadic (element : String)
  | optionalIon (element : String)
  | emptySum (tag : String)
  | emptyRecord (tag : String)
  | baseMissing (domain base : String)
  | builtinExcluded (name : String)
  | excludedMissing (name : String)
  | sumMissing (name : String)
  | notASum (name : String)
  | variantMissing (sum variant : String)
  | transformedMissing (name : String)
  deriving DecidableEq, Repr

abbrev DomainError := Located DomainFault

def DomainFault.message : DomainFault → String
  | emptyUniverse => "type universe is empty"
  | domainDefinedTwice name => s!"a domain named '{name}' is already defined"
  | nameUsedTwice name => s!"name '{name}' is already used"
  | undefinedType name => s!"undefined type '{name}'"
  | notAType name => s!"'{name}' is not the name of a type"
  | requiredAfterVariadic element => s!"required element '{element}' follows a variadic element"
  | optionalAfterVariadic element => s!"optional element '{element}' follows a variadic element"
  | secondVariadic element => s!"element '{element}' is a second variadic element"
  | optionalIon element => s!"element '{element}' is an optional ion, which is not allowed"
  | emptySum tag => s!"sum '{tag}' has no variants"
  | emptyRecord tag => s!"record '{tag}' has no elements"
  | baseMissing domain base => s!"domain '{domain}' permutes '{base}', which is not defined"
  | builtinExcluded name => s!"cannot remove built-in type '{name}'"
  | excludedMissing name => s!"cannot remove type '{name}', it does not exist"
  | sumMissing name => s!"cannot permute sum '{name}', it does not exist"
  | notASum name => s!"cannot permute '{name}', it is not a sum"
  | variantMissing sum variant =>
    s!"cannot remove variant '{variant}' from sum '{sum}', it does not exist"
  | transformedMissing name => s!"transform references undefined domain '{name}'"

def DomainError.message (e : DomainError) : String := s!"{e.location.text}: {e.cause.message}"

end TypeDomains
