import TypeDomains.Files.FileSystem

/-!
# Include paths

The literal of an include names a file below some directory: segments of letters, digits and
`_ . -`, none of them `.` or `..`. A leading slash changes nothing.
-/

namespace TypeDomains.IncludePath

def allowed (c : Char) : Bool := c.isAlphanum || c = '_' || c = '.' || c = '-'

def isSegment (s : List Char) : Bool :=
  !s.isEmpty && s.all allowed && s != ['.'] && s != ['.', '.']

def unrooted : List Char → List Char
  | '/' :: cs => cs
  | cs => cs

/-- The path of a literal below the directory that is searched. -/
def relative? (literal : String) : Option Path :=
  let cs := unrooted literal.toList
  if (partsAt '/' cs).all isSegment then some ⟨.ofList cs⟩ else none

end TypeDomains.IncludePath
