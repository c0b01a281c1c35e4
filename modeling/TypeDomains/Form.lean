import TypeDomains.Model
import TypeDomains.SourceFault

/-!
# Forms

The statements that s-expressions stand for. A top-level form is a statement of its own or asks for
the statements of a file.

* `(define NAME (domain TYPE*))` and `(define NAME (permute_domain NAME ALTERATION*))`
* `(transform NAME NAME)`
* `(include_file STRING)`
-/

namespace TypeDomains

namespace SExpr

def refuse {α : Type} (e : SExpr) (fault : SourceFault) : Except SourceError α :=
  .error ⟨fault, e.location⟩

def symbol (e : SExpr) : Except SourceError String :=
  match e.symbol? with
  | some name => .ok name
  | none => e.refuse (.wanted .symbol e.shape)

def string : SExpr → Except SourceError String
  | atom (.string text) _ _ => .ok text
  | e => e.refuse (.wanted .string e.shape)

/-- A list's head, which has to be a symbol, and its arguments. -/
def form : SExpr → Except SourceError (String × List SExpr)
  | list (head :: arguments) _ _ => head.symbol.map (·, arguments)
  | list [] _ l => .error ⟨.wanted .symbol .emptyList, l⟩
  | e => e.refuse (.wanted .list e.shape)

/-- The first argument of a form that needs one, and the others. -/
def first (e : SExpr) (head : String) : List SExpr → Except SourceError (SExpr × List SExpr)
  | [] => e.refuse (.argumentCount head 1 0)
  | a :: as => .ok (a, as)

/-- The argument of a form that takes one. -/
def only (e : SExpr) (head : String) : List SExpr → Except SourceError SExpr
  | [a] => .ok a
  | as => e.refuse (.argumentCount head 1 as.length)

/-- The arguments of a form that takes two. -/
def pair (e : SExpr) (head : String) : List SExpr → Except SourceError (SExpr × SExpr)
  | [a, b] => .ok (a, b)
  | as => e.refuse (.argumentCount head 2 as.length)

def refuseHead {α : Type} (e : SExpr) (context : Context) (head : String) :
    Except SourceError α :=
  .error ⟨.unknownHead context head, e.headLocation⟩

end SExpr

def Ident.ofSExpr (e : SExpr) : Except SourceError Ident := do
  return ⟨← e.symbol, e.location⟩

namespace TypeRef

/-- The least number of values of a variadic element. -/
def minimum : SExpr → Except SourceError UInt32
  | .atom (.integer n) _ l =>
    if 0 ≤ n ∧ n ≤ 4294967295 then .ok (.ofNat n.toNat) else .error ⟨.minimumOutOfRange n, l⟩
  | e => e.refuse (.wanted .integer e.shape)

/-- Reads `NAME`, `(? NAME)` or `(* NAME INTEGER)`. -/
def ofSExpr (e : SExpr) : Except SourceError TypeRef :=
  match e with
  | .atom (.symbol name) _ l => .ok ⟨name, .required, l⟩
  | .list (head :: arguments) _ l => do
    match ← head.symbol with
    | "?" => return ⟨← (← e.only "?" arguments).symbol, .optional, l⟩
    | "*" =>
      let (name, min) ← e.pair "*" arguments
      return ⟨← name.symbol, .variadic (← minimum min), l⟩
    | other => head.refuse (.unknownArity other)
  | _ => e.refuse (.wanted .symbolOrList e.shape)

end TypeRef

namespace Element

/-- Reads `IDENTIFIER::TYPE`, a part of a product. -/
def ofPart (e : SExpr) : Except SourceError Element :=
  match e.annotations with
  | [] => e.refuse .missingIdentifier
  | [identifier] => do return ⟨identifier, "", ← TypeRef.ofSExpr e, e.location⟩
  | _ => e.refuse .manyIdentifiers

/-- Reads `(TAG TYPE)` or `IDENTIFIER::(TAG TYPE)`, a field of a record. -/
def ofField (e : SExpr) : Except SourceError Element :=
  match e with
  | .list [field, type] annotations l => do
    let tag ← field.symbol
    match annotations with
    | [] => return ⟨tag, tag, ← TypeRef.ofSExpr type, l⟩
    | [identifier] => return ⟨identifier, tag, ← TypeRef.ofSExpr type, l⟩
    | _ => e.refuse .manyIdentifiers
  | _ => e.refuse .fieldShape

def ofSExpr : TupleKind → SExpr → Except SourceError Element
  | .product => ofPart
  | .record => ofField

end Element

namespace Tuple

def ofElements (tag : String) (kind : TupleKind) (elements : List SExpr) (l : Location) :
    Except SourceError Tuple := do
  return ⟨tag, kind, ← elements.mapM (Element.ofSExpr kind), false, l⟩

/-- A variant is a record if its first element starts like a field: with a symbol that is no
arity. -/
def variantKind (elements : List SExpr) : TupleKind :=
  match elements.head?.bind SExpr.head? with
  | some head => if head = "?" || head = "*" then .product else .record
  | none => .product

/-- Reads `(TAG ELEMENT*)`. -/
def ofVariant (e : SExpr) : Except SourceError Tuple := do
  let (tag, elements) ← e.form
  ofElements tag (variantKind elements) elements e.location

end Tuple

namespace DataType

def ofTuple (e : SExpr) (kind : TupleKind) (arguments : List SExpr) :
    Except SourceError DataType := do
  let (tag, elements) ← e.first kind.keyword arguments
  return .tuple (← Tuple.ofElements (← tag.symbol) kind elements e.location)

/-- The variants are read before the tag. -/
def ofSum (e : SExpr) (arguments : List SExpr) : Except SourceError DataType := do
  let (tag, variants) ← e.first "sum" arguments
  let variants ← variants.mapM Tuple.ofVariant
  return .sum ⟨← tag.symbol, variants, false, e.location⟩

/-- Reads `(product TAG PART*)`, `(record TAG FIELD*)` or `(sum TAG VARIANT*)`. -/
def ofSExpr (e : SExpr) : Except SourceError DataType := do
  let (head, arguments) ← e.form
  match head with
  | "product" => ofTuple e .product arguments
  | "record" => ofTuple e .record arguments
  | "sum" => ofSum e arguments
  | _ => e.refuseHead .typeDeclaration head

end DataType

namespace SumChange

/-- Adds `(exclude TAG*)` or `(include VARIANT*)`. -/
def alter (s : SumChange) (e : SExpr) : Except SourceError SumChange := do
  let (head, arguments) ← e.form
  match head with
  | "exclude" => return { s with removed := s.removed ++ (← arguments.mapM Ident.ofSExpr) }
  | "include" => return { s with added := s.added ++ (← arguments.mapM Tuple.ofVariant) }
  | _ => e.refuseHead .sumPermutation head

/-- The arguments of `(with TAG ALTERATION*)`. -/
def ofArguments (e : SExpr) (arguments : List SExpr) : Except SourceError SumChange := do
  let (tag, alterations) ← e.first "with" arguments
  alterations.foldlM alter ⟨← tag.symbol, [], [], e.location⟩

end SumChange

namespace Permutation

/-- Adds `(exclude TAG*)`, `(include TYPE*)` or `(with TAG ALTERATION*)`. -/
def alter (p : Permutation) (e : SExpr) : Except SourceError Permutation := do
  let (head, arguments) ← e.form
  match head with
  | "exclude" => return { p with excluded := p.excluded ++ (← arguments.mapM Ident.ofSExpr) }
  | "include" => return { p with included := p.included ++ (← arguments.mapM DataType.ofSExpr) }
  | "with" => return { p with sums := p.sums ++ [← SumChange.ofArguments e arguments] }
  | _ => e.refuseHead .domainPermutation head

end Permutation

namespace Statement

/-- The body of a definition that stands at `l` and gives it the name `tag`. -/
def ofBody (tag : String) (l : Location) (body : SExpr) : Except SourceError Statement := do
  let (head, arguments) ← body.form
  match head with
  | "domain" => return .domain ⟨tag, ← arguments.mapM DataType.ofSExpr, l⟩
  | "permute_domain" =>
    let (base, alterations) ← body.first "permute_domain" arguments
    return .permutation
      (← alterations.foldlM Permutation.alter ⟨tag, ← base.symbol, [], [], [], l⟩)
  | _ => body.refuseHead .domainDefinition head

def ofDefine (e : SExpr) (arguments : List SExpr) : Except SourceError Statement := do
  let (name, body) ← e.pair "define" arguments
  ofBody (← name.symbol) e.location body

def ofTransform (e : SExpr) (arguments : List SExpr) : Except SourceError Statement := do
  let (source, destination) ← e.pair "transform" arguments
  return .transform ⟨← source.symbol, ← destination.symbol, e.location⟩

end Statement

/-- What a top-level value says. -/
inductive Form where
  | statement (s : Statement)
  | inclusion (path : String) (location : Location)

def Form.ofSExpr (e : SExpr) : Except SourceError Form := do
  let (head, arguments) ← e.form
  match head with
  | "define" => return .statement (← Statement.ofDefine e arguments)
  | "transform" => return .statement (← Statement.ofTransform e arguments)
  | "include_file" =>
    let path ← e.only "include_file" arguments
    return .inclusion (← path.string) path.location
  | _ => .error ⟨.unknownStatement head, e.headLocation⟩

end TypeDomains
