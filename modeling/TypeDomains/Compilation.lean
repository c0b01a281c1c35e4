import TypeDomains.Difference
import TypeDomains.DomainRules
import TypeDomains.Expansion
import TypeDomains.Permuting

/-!
# Compiling a universe

From the statements of a universe to its domains, each concrete and within the rules, and to the
difference that each transform asks for. A permutation builds on the domains defined before it; a
transform may stand anywhere.
-/

namespace TypeDomains

namespace Statement

/-- The concrete domain that a statement defines behind `domains`, if it defines one. -/
def defines? (domains : List Domain) : Statement → Except DomainError (Option Domain)
  | domain d => .ok (some d)
  | permutation p => (p.toDomain domains).map some
  | transform _ => .ok none

/-- Puts the domain that a statement defines behind those before it. -/
def define (domains : List Domain) (s : Statement) : Except DomainError (List Domain) := do
  match ← s.defines? domains with
  | none => return domains
  | some d =>
    if (Domain.find? domains d.tag).isSome then .error ⟨.domainDefinedTwice d.tag, s.location⟩
    else do
      d.check
      return domains ++ [d]

end Statement

def Transform.side (t : Transform) (domains : List Domain) (tag : String) :
    Except DomainError Domain :=
  match Domain.find? domains tag with
  | some d => .ok d
  | none => .error ⟨.transformedMissing tag, t.location⟩

def Transform.difference (domains : List Domain) (t : Transform) : Except DomainError Domain := do
  let source ← t.side domains t.source
  let destination ← t.side domains t.destination
  return source.differenceFrom destination

namespace Universe

def domains (u : Universe) : Except DomainError (List Domain) :=
  if u.statements.isEmpty then .error ⟨.emptyUniverse, .unknown⟩
  else u.statements.foldlM Statement.define []

/-- One domain for each transform, in order. -/
def differences (u : Universe) (domains : List Domain) : Except DomainError (List Domain) :=
  u.transforms.mapM (Transform.difference domains)

end Universe

inductive CompileError where
  | source (e : SourceError)
  | domain (e : DomainError)
  deriving DecidableEq, Repr

namespace CompileError

def location : CompileError → Location
  | source e => e.location
  | domain e => e.location

def message : CompileError → String
  | source e => SourceError.message e
  | domain e => DomainError.message e

end CompileError

structure Compilation where
  source : Universe
  domains : List Domain
  differences : List Domain
  deriving DecidableEq, Repr

namespace Compilation

/-- Compiles a universe; its transforms are looked at only if they are wanted. -/
def ofUniverse (withTransforms : Bool) (u : Universe) : Except DomainError Compilation := do
  let domains ← u.domains
  let differences ← if withTransforms then u.differences domains else .ok []
  return ⟨u, domains, differences⟩

def ofExpansion (withTransforms : Bool) (x : Expansion) : Except CompileError Compilation := do
  let u ← x.toUniverse.mapError .source
  (ofUniverse withTransforms u).mapError .domain

def ofFile (s : Sources) (withTransforms : Bool) (main : Path) :
    Except CompileError Compilation :=
  ofExpansion withTransforms (s.ofFile main)

def ofString (s : Sources) (withTransforms : Bool) (text : String) :
    Except CompileError Compilation :=
  ofExpansion withTransforms (s.ofString text)

def domain? (c : Compilation) (tag : String) : Option Domain := Domain.find? c.domains tag

end Compilation

end TypeDomains
