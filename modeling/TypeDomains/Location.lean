/-!
# Locations

Where a piece of source text stands: lines and columns count characters from one, and only a
newline starts a line. Line zero says that the place inside the file is not known.
-/

namespace TypeDomains

structure Location where
  file : Option String
  line : Nat
  column : Nat
  deriving DecidableEq, Repr

namespace Location

/-- The location of what no source text holds. -/
def unknown : Location := ⟨none, 0, 0⟩

/-- The first character of a text. -/
def start (file : Option String) : Location := ⟨file, 1, 1⟩

/-- A file as a whole. -/
def ofFile (file : String) : Location := ⟨some file, 0, 0⟩

def isKnown (l : Location) : Bool := 0 < l.line

/-- The place behind the character `c`. -/
def next (l : Location) (c : Char) : Location :=
  if c = '\n' then ⟨l.file, l.line + 1, 1⟩ else ⟨l.file, l.line, l.column + 1⟩

/-- The place behind the characters `cs`. -/
def after (l : Location) (cs : List Char) : Location := cs.foldl next l

def text (l : Location) : String :=
  match l.file, l.isKnown with
  | some file, true => s!"{file}:{l.line}:{l.column}"
  | some file, false => file
  | none, true => s!"{l.line}:{l.column}"
  | none, false => "<unknown location>"

end Location

/-- A place in a text: where it is and what follows it. -/
structure Cursor where
  location : Location
  rest : List Char
  deriving DecidableEq, Repr

/-- A cause and the location it is blamed on. -/
structure Located (α : Type) where
  cause : α
  location : Location
  deriving DecidableEq, Repr

end TypeDomains
