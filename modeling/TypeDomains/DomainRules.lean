import TypeDomains.DomainFault
import TypeDomains.Model
import TypeDomains.NameTable

/-!
# The rules of a domain

All tags of types and variants are distinct, and so are the identifiers and the field tags within
a tuple. Elements refer to types, a variadic element comes last and no `ion` is optional. Sums and
records are not empty. The first violation is reported, those of names before all others.
-/

namespace TypeDomains

namespace NameTable

def enter (t : NameTable) (name : String) (kind : NameKind) (l : Location) :
    Except DomainError NameTable :=
  match t.define? ⟨name, kind, l⟩ with
  | some t' => .ok t'
  | none => .error ⟨.nameUsedTwice name, l⟩

/-- Enters identifiers in the innermost frame. The fields of a record may not repeat those in
`fields` either. -/
def enterElements (kind : TupleKind) (t : NameTable) (fields : List String) :
    List Element → Except DomainError NameTable
  | [] => .ok t
  | e :: es => do
    let t ← t.enter e.identifier .element e.location
    if kind = .record && fields.contains e.tag then .error ⟨.nameUsedTwice e.tag, e.location⟩
    else enterElements kind t (e.tag :: fields) es

/-- Enters the tag in the domain, and the names of the elements in a frame of their own. -/
def enterTuple (kind : NameKind) (t : NameTable) (tuple : Tuple) :
    Except DomainError NameTable := do
  let t ← t.enter tuple.tag kind tuple.location
  return (← enterElements tuple.kind t.push [] tuple.elements).pop

/-- Enters the names of a type. A built-in type listed once more stands where its domain stands. -/
def enterType (domain : Location) (t : NameTable) : DataType → Except DomainError NameTable
  | .builtin b => t.enter b.tag .type domain
  | .tuple tuple => t.enterTuple .type tuple
  | .sum s => do s.variants.foldlM (enterTuple .variant) (← t.enter s.tag .type s.location)

/-- The names of a domain. -/
def ofDomain (d : Domain) : Except DomainError NameTable := do
  let t ← Builtin.all.foldlM (fun t b => t.enter b.tag .builtin d.location) empty
  d.types.foldlM (enterType d.location) t

end NameTable

namespace Element

/-- An element refers to a type. The tag of a variant and an identifier in the same tuple are
names, but not of types. -/
def checkReference (names : NameTable) (t : Tuple) (e : Element) : Except DomainError Unit :=
  match names.lookup? e.type.name with
  | some b => if b.kind.isType then .ok () else .error ⟨.notAType e.type.name, e.type.location⟩
  | none =>
    if (t.element? e.type.name).isSome then .error ⟨.notAType e.type.name, e.type.location⟩
    else .error ⟨.undefinedType e.type.name, e.type.location⟩

/-- No element follows a variadic one. -/
def checkOrder (afterVariadic : Bool) (e : Element) : Except DomainError Unit :=
  if !afterVariadic then .ok ()
  else
    match e.type.arity with
    | .required => .error ⟨.requiredAfterVariadic e.identifier, e.location⟩
    | .optional => .error ⟨.optionalAfterVariadic e.identifier, e.location⟩
    | .variadic _ => .error ⟨.secondVariadic e.identifier, e.location⟩

def checkIon (e : Element) : Except DomainError Unit :=
  if e.type.arity = .optional && e.type.name = Builtin.ion.tag then
    .error ⟨.optionalIon e.identifier, e.location⟩
  else .ok ()

end Element

namespace Tuple

def checkElements (names : NameTable) (t : Tuple) (afterVariadic : Bool) :
    List Element → Except DomainError Unit
  | [] => .ok ()
  | e :: es => do
    e.checkReference names t
    e.checkOrder afterVariadic
    e.checkIon
    checkElements names t (afterVariadic || e.type.arity.isVariadic) es

def check (names : NameTable) (t : Tuple) : Except DomainError Unit :=
  if t.kind = .record && t.elements.isEmpty then .error ⟨.emptyRecord t.tag, t.location⟩
  else t.checkElements names false t.elements

end Tuple

def DataType.check (names : NameTable) : DataType → Except DomainError Unit
  | builtin _ => .ok ()
  | tuple t => t.check names
  | sum s =>
    if s.variants.isEmpty then .error ⟨.emptySum s.tag, s.location⟩
    else s.variants.forM (Tuple.check names)

/-- The first violation of a rule, if there is one. -/
def Domain.check (d : Domain) : Except DomainError Unit := do
  d.types.forM (DataType.check (← NameTable.ofDomain d))

end TypeDomains
