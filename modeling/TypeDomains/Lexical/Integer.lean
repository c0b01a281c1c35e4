import TypeDomains.Lexical.Fault

/-!
# Integer literals

Decimal digits with single underscores between them, up to the limits of a 64-bit word.
-/

namespace TypeDomains.Integer

/-- What a literal may go on with once a digit has started it. -/
def continues (c : Char) : Bool := c.isDigit || c = '_'

/-- What may not stand directly behind a literal. -/
def clashes (c : Char) : Bool := c.isAlpha || c = '$' || c = '.'

def doubled : List Char → Bool
  | '_' :: '_' :: _ => true
  | _ :: cs => doubled cs
  | [] => false

def misplaced (run : List Char) : Bool := run.getLast? = some '_' || doubled run

def magnitude (run : List Char) : Nat := Nat.ofDigitChars 10 (run.filter (· ≠ '_')) 0

def value (negative : Bool) (run : List Char) : Int :=
  if negative then -(magnitude run : Int) else magnitude run

def fits (n : Int) : Bool := -9223372036854775808 ≤ n && n ≤ 9223372036854775807

/-- The number that a sign and a run of digits and underscores denote, where `next` is the
character behind the run. -/
def read (negative : Bool) (run : List Char) (next : Option Char) : Except TextFault Int :=
  let digits := (if negative then "-" else "") ++ String.ofList run
  if next.any clashes then .error (.malformedNumber digits)
  else if misplaced run then .error (.misplacedUnderscore digits)
  else if fits (value negative run) then .ok (value negative run)
  else .error (.integerOutOfRange digits)

end TypeDomains.Integer
