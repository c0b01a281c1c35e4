import TypeDomains.Token

/-!
# S-expressions

Values as they are read, before they mean anything. `a::b::v` is `v` under the annotations `a`
and `b`, and stands where its first annotation stands.
-/

namespace TypeDomains

inductive Atom where
  | symbol (name : String)
  | integer (value : Int)
  | string (text : String)
  deriving DecidableEq, Repr

inductive SExpr where
  | atom (value : Atom) (annotations : List String) (location : Location)
  | list (items : List SExpr) (annotations : List String) (location : Location)
  deriving Repr

/-- What a complaint calls a value. -/
inductive Shape where
  | symbol
  | integer
  | string
  | emptyList
  | list
  deriving DecidableEq, Repr

def Shape.text : Shape → String
  | symbol => "symbol"
  | integer => "integer"
  | string => "string"
  | emptyList => "empty s-expression"
  | list => "s-expression"

def Atom.shape : Atom → Shape
  | symbol _ => .symbol
  | integer _ => .integer
  | string _ => .string

namespace SExpr

def location : SExpr → Location
  | atom _ _ l => l
  | list _ _ l => l

def annotations : SExpr → List String
  | atom _ as _ => as
  | list _ as _ => as

def shape : SExpr → Shape
  | atom a _ _ => a.shape
  | list [] _ _ => .emptyList
  | list (_ :: _) _ _ => .list

def symbol? : SExpr → Option String
  | atom (.symbol name) _ _ => some name
  | _ => none

/-- The symbol that a list starts with. -/
def head? : SExpr → Option String
  | list (head :: _) _ _ => head.symbol?
  | _ => none

/-- Where a list's first item stands, or else the value itself. -/
def headLocation : SExpr → Location
  | list (head :: _) _ _ => head.location
  | e => e.location

end SExpr

end TypeDomains
