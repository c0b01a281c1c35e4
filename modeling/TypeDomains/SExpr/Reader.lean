import TypeDomains.SExpr

/-!
# Reading s-expressions

The values of a row of tokens. The reader goes over the tokens once and keeps the lists that are
open, so where a text breaks off it knows the innermost of them.
-/

namespace TypeDomains

/-- A list whose closing parenthesis is still to come. `around` holds the values that precede it,
the latest first. -/
structure OpenList where
  parenthesis : Location
  annotations : List String
  location : Location
  around : List SExpr

/-- Annotations that wait for their value, the latest first, and where the first of them stands. -/
structure Pending where
  names : List String
  location : Option Location

namespace Pending

def none : Pending := ⟨[], .none⟩

def add (p : Pending) (name : String) (l : Location) : Pending :=
  ⟨name :: p.names, p.location.or (some l)⟩

end Pending

/-- What has been read so far: the values of the innermost open list, the latest first, the lists
around it from the inside out, and the annotations of the next value. -/
structure Reading where
  values : List SExpr
  opened : List OpenList
  pending : Pending

namespace Reading

def start : Reading := ⟨[], [], .none⟩

def atom (r : Reading) (a : Atom) (l : Location) : Reading :=
  let value := .atom a r.pending.names.reverse (r.pending.location.getD l)
  ⟨value :: r.values, r.opened, .none⟩

def annotate (r : Reading) (name : String) (l : Location) : Reading :=
  { r with pending := r.pending.add name l }

def openList (r : Reading) (l : Location) : Reading :=
  let list := ⟨l, r.pending.names.reverse, r.pending.location.getD l, r.values⟩
  ⟨[], list :: r.opened, .none⟩

/-- A closing parenthesis ends the innermost list, unless an annotation wants a value first. -/
def closeList (r : Reading) (l : Location) : Except TextError Reading :=
  match r.pending.names, r.opened with
  | [], o :: os => .ok ⟨.list r.values.reverse o.annotations o.location :: o.around, os, .none⟩
  | _, _ => .error ⟨.unexpectedClosing, l⟩

def finish (r : Reading) (stop : Location) : Except TextError (List SExpr) :=
  match r.pending.names, r.opened with
  | [], [] => .ok r.values.reverse
  | [], o :: _ => .error ⟨.openList, o.parenthesis⟩
  | _ :: _, _ => .error ⟨.danglingAnnotations, stop⟩

/-- Goes on with the tokens that remain. A plain or quoted symbol with `::` behind it annotates. -/
def run (r : Reading) (stop : Location) : List Token → Except TextError (List SExpr)
  | [] => r.finish stop
  | ⟨.symbol name, l⟩ :: ⟨.colons, _⟩ :: ts => (r.annotate name l).run stop ts
  | ⟨.quoted name, l⟩ :: ⟨.colons, _⟩ :: ts => (r.annotate name l).run stop ts
  | ⟨.symbol name, l⟩ :: ts => (r.atom (.symbol name) l).run stop ts
  | ⟨.quoted name, l⟩ :: ts => (r.atom (.symbol name) l).run stop ts
  | ⟨.operator name, l⟩ :: ts => (r.atom (.symbol name) l).run stop ts
  | ⟨.integer value, l⟩ :: ts => (r.atom (.integer value) l).run stop ts
  | ⟨.string text, l⟩ :: ts => (r.atom (.string text) l).run stop ts
  | ⟨.opening, l⟩ :: ts => (r.openList l).run stop ts
  | ⟨.closing, l⟩ :: ts =>
    match r.closeList l with
    | .ok r' => r'.run stop ts
    | .error e => .error e
  | ⟨.colons, l⟩ :: _ => .error ⟨.unexpectedColons, l⟩

end Reading

namespace SExpr

def ofTokens (ts : Tokens) : Except TextError (List SExpr) :=
  Reading.start.run ts.stop ts.tokens

/-- All values of a text, in order. -/
def ofText (file : Option String) (text : String) : Except TextError (List SExpr) := do
  ofTokens (← Tokens.ofText file text)

end SExpr

end TypeDomains
