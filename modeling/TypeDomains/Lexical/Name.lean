/-!
# Names

A name is any text. A plain one is written as it is, every other between quotes.
-/

namespace TypeDomains.Name

def starts (c : Char) : Bool := c.isAlpha || c = '_' || c = '$'

def continues (c : Char) : Bool := c.isAlphanum || c = '_' || c = '$'

def isPlain : List Char → Bool
  | [] => false
  | c :: cs => starts c && cs.all continues

def escaped : Char → List Char
  | '\'' => ['\\', '\'']
  | '\\' => ['\\', '\\']
  | '\n' => ['\\', 'n']
  | '\t' => ['\\', 't']
  | c => [c]

/-- The name as a symbol in source text. -/
def written (name : String) : List Char :=
  if isPlain name.toList then name.toList
  else '\'' :: name.toList.flatMap escaped ++ ['\'']

/-! ## Letters and digits

Those of ASCII, and no others. -/

theorem isAlpha_iff {c : Char} : c.isAlpha ↔
    ('A'.toNat ≤ c.toNat ∧ c.toNat ≤ 'Z'.toNat) ∨ 'a'.toNat ≤ c.toNat ∧ c.toNat ≤ 'z'.toNat := by
  have upper : c.isUpper ↔ 'A'.toNat ≤ c.toNat ∧ c.toNat ≤ 'Z'.toNat := decide_eq_true_iff
  have lower : c.isLower ↔ 'a'.toNat ≤ c.toNat ∧ c.toNat ≤ 'z'.toNat :=
    Bool.and_eq_true_iff.trans (and_congr decide_eq_true_iff decide_eq_true_iff)
  rw [← upper, ← lower]
  exact Bool.or_eq_true_iff

theorem isAlphanum_iff {c : Char} : c.isAlphanum ↔ c.isAlpha ∨ c.isDigit := Bool.or_eq_true_iff

end TypeDomains.Name
