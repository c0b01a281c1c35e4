import TypeDomains.Location

/-!
# Type domains

A domain is a named list of types. A type is built in, a tuple of named elements, or a sum of
variant tuples. A universe is a list of statements: domains, permutations of earlier domains, and
transforms between two of them.

Difference flags are set only where two domains are compared (`TypeDomains.Difference`).
-/

namespace TypeDomains

inductive Builtin where
  | bool
  | int
  | symbol
  | ion
  deriving DecidableEq, Repr

namespace Builtin

def tag : Builtin → String
  | bool => "bool"
  | int => "int"
  | symbol => "symbol"
  | ion => "ion"

/-- The types that every domain has, in the order in which it lists them. -/
def all : List Builtin := [bool, int, symbol, ion]

/-- An `ion` is carried along unread; the others hold one scalar. -/
def isPrimitive (b : Builtin) : Bool := b != ion

def isTag (name : String) : Bool := all.any (·.tag == name)

end Builtin

/-- How many values an element holds. -/
inductive Arity where
  | required
  | optional
  | variadic (min : UInt32)
  deriving DecidableEq, Repr

def Arity.isVariadic : Arity → Bool
  | variadic _ => true
  | _ => false

structure TypeRef where
  name : String
  arity : Arity
  location : Location
  deriving DecidableEq, Repr

/-- A part of a tuple. In a record the tag names its field; in a product it is empty. -/
structure Element where
  identifier : String
  tag : String
  type : TypeRef
  location : Location
  deriving DecidableEq, Repr

inductive TupleKind where
  | product
  | record
  deriving DecidableEq, Repr

def TupleKind.keyword : TupleKind → String
  | product => "product"
  | record => "record"

structure Tuple where
  tag : String
  kind : TupleKind
  elements : List Element
  different : Bool
  location : Location
  deriving DecidableEq, Repr

def Tuple.element? (t : Tuple) (identifier : String) : Option Element :=
  t.elements.find? (·.identifier == identifier)

structure Sum where
  tag : String
  variants : List Tuple
  different : Bool
  location : Location
  deriving DecidableEq, Repr

def Sum.variant? (s : Sum) (tag : String) : Option Tuple :=
  s.variants.find? (·.tag == tag)

inductive DataType where
  | builtin (b : Builtin)
  | tuple (t : Tuple)
  | sum (s : Sum)
  deriving DecidableEq, Repr

namespace DataType

def tag : DataType → String
  | builtin b => b.tag
  | tuple t => t.tag
  | sum s => s.tag

def isBuiltin : DataType → Bool
  | builtin _ => true
  | _ => false

def isPrimitive : DataType → Bool
  | builtin b => b.isPrimitive
  | _ => false

def different : DataType → Bool
  | builtin _ => false
  | tuple t => t.different
  | sum s => s.different

/-- The type with its flag set; a built-in type has none. -/
def asDifferent : DataType → DataType
  | builtin b => builtin b
  | tuple t => tuple { t with different := true }
  | sum s => sum { s with different := true }

def location? : DataType → Option Location
  | builtin _ => none
  | tuple t => some t.location
  | sum s => some s.location

end DataType

structure Domain where
  tag : String
  types : List DataType
  location : Location
  deriving DecidableEq, Repr

namespace Domain

def allTypes (d : Domain) : List DataType := Builtin.all.map .builtin ++ d.types

def type? (d : Domain) (name : String) : Option DataType :=
  d.allTypes.find? (·.tag == name)

/-- The first domain of that tag. -/
def find? (ds : List Domain) (tag : String) : Option Domain :=
  List.find? (·.tag == tag) ds

end Domain

/-- A name that stands at a place of its own. -/
structure Ident where
  name : String
  location : Location
  deriving DecidableEq, Repr

/-- Variants taken out of a sum, and variants put behind those that stay. -/
structure SumChange where
  tag : String
  removed : List Ident
  added : List Tuple
  location : Location
  deriving DecidableEq, Repr

/-- A domain given by what sets it apart from another one. -/
structure Permutation where
  tag : String
  base : String
  excluded : List Ident
  included : List DataType
  sums : List SumChange
  location : Location
  deriving DecidableEq, Repr

structure Transform where
  source : String
  destination : String
  location : Location
  deriving DecidableEq, Repr

inductive Statement where
  | domain (d : Domain)
  | permutation (p : Permutation)
  | transform (t : Transform)
  deriving DecidableEq, Repr

def Statement.location : Statement → Location
  | domain d => d.location
  | permutation p => p.location
  | transform t => t.location

structure Universe where
  statements : List Statement
  deriving DecidableEq, Repr

def Universe.transforms (u : Universe) : List Transform :=
  u.statements.filterMap fun
    | .transform t => some t
    | _ => none

end TypeDomains
