import TypeDomains.Lexical.Parts

/-!
# Paths

A path is the text that a user or a file writes. Its route is what it shares with its other
spellings: empty segments and all dots but a leading one drop out, while `..` stays, since what it
means depends on the files. A place is where a file really is: the names that lead there from the
root.
-/

namespace TypeDomains

structure Path where
  text : String
  deriving DecidableEq, Repr

structure Route where
  rooted : Bool
  steps : List String
  deriving DecidableEq, Repr

namespace Path

def isRooted (p : Path) : Bool := p.text.toList.head? = some '/'

def segments (p : Path) : List String := (partsAt '/' p.text.toList).map .ofList

/-- The segments that name something. -/
def names (p : Path) : List String := p.segments.filter fun s => s ≠ "" && s ≠ "."

def route (p : Path) : Route :=
  let leading := if !p.isRooted && p.segments.head? = some "." then ["."] else []
  ⟨p.isRooted, leading ++ p.names⟩

/-- The path `p` as it is meant in the directory `dir`; a rooted one is meant the same anywhere. -/
def within (dir p : Path) : Path :=
  if p.isRooted || dir.text.isEmpty then p
  else if dir.text.toList.getLast? = some '/' then ⟨dir.text ++ p.text⟩
  else ⟨dir.text ++ "/" ++ p.text⟩

end Path

structure Place where
  names : List String
  deriving DecidableEq, Repr

namespace Place

def root : Place := ⟨[]⟩

def path (p : Place) : Path := ⟨"/" ++ "/".intercalate p.names⟩

def route (p : Place) : Route := ⟨true, p.names⟩

/-- The directory that holds the place; the root holds itself. -/
def parent (p : Place) : Place := ⟨p.names.dropLast⟩

def child (p : Place) (name : String) : Place := ⟨p.names ++ [name]⟩

/-- One name further along a path that passes no link. -/
def enter (p : Place) (name : String) : Place := if name = ".." then p.parent else p.child name

/-- Whether `q` lies below `p` or is `p`. -/
def holds (p q : Place) : Bool := p.names.isPrefixOf q.names

end Place

end TypeDomains
