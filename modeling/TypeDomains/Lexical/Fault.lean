import TypeDomains.Location

/-!
# Faults of a text

What can be wrong with a text before its values have a meaning, each with its wording.
-/

namespace TypeDomains

/-- The two literals that stand between quotes. -/
inductive Quote where
  | string
  | symbol
  deriving DecidableEq, Repr

namespace Quote

def mark : Quote → Char
  | string => '"'
  | symbol => '\''

def noun : Quote → String
  | string => "string"
  | symbol => "quoted symbol"

end Quote

inductive TextFault where
  | unexpectedCharacter (c : Char)
  | openComment
  | openQuote (quote : Quote)
  | openEscape
  | unknownEscape (c : Char)
  | malformedNumber (digits : String)
  | misplacedUnderscore (digits : String)
  | integerOutOfRange (digits : String)
  | unexpectedClosing
  | unexpectedColons
  | openList
  | danglingAnnotations
  deriving DecidableEq, Repr

def TextFault.message : TextFault → String
  | unexpectedCharacter c => s!"unexpected character '{c}'"
  | openComment => "unterminated block comment"
  | openQuote quote => s!"unterminated {quote.noun}"
  | openEscape => "unterminated escape sequence"
  | unknownEscape c => s!"invalid escape sequence '\\{c}'"
  | malformedNumber digits => s!"invalid numeric literal starting with '{digits}'"
  | misplacedUnderscore digits => s!"misplaced '_' in integer '{digits}'"
  | integerOutOfRange digits => s!"integer '{digits}' is out of range"
  | unexpectedClosing => "unexpected ')'"
  | unexpectedColons => "unexpected '::'"
  | openList => "unterminated s-expression"
  | danglingAnnotations => "annotation is not followed by a value"

abbrev TextError := Located TextFault

end TypeDomains
