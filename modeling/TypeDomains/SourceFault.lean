import TypeDomains.Files.FileSystem
import TypeDomains.SExpr

/-!
# Faults of a source

What can be wrong with the text of a universe and with the files that it includes.
-/

namespace TypeDomains

/-- What a form needs at some place. -/
inductive Wanted where
  | symbol
  | list
  | symbolOrList
  | string
  | integer
  deriving DecidableEq, Repr

def Wanted.text : Wanted → String
  | symbol => "a symbol"
  | list => "an s-expression"
  | symbolOrList => "a symbol or an s-expression"
  | string => "a string"
  | integer => "an integer"

/-- The forms that are told apart by their heads. -/
inductive Context where
  | domainDefinition
  | domainPermutation
  | sumPermutation
  | typeDeclaration
  deriving DecidableEq, Repr

def Context.text : Context → String
  | domainDefinition => "domain definition"
  | domainPermutation => "domain permutation"
  | sumPermutation => "sum permutation"
  | typeDeclaration => "type declaration"

inductive SourceFault where
  | text (fault : TextFault)
  | unknownStatement (head : String)
  | argumentCount (head : String) (expected actual : Nat)
  | unknownHead (context : Context) (head : String)
  | unknownArity (head : String)
  | fieldShape
  | wanted (what : Wanted) (found : Shape)
  | minimumOutOfRange (value : Int)
  | missingIdentifier
  | manyIdentifiers
  | includeMissing (path : String) (searched : List Path)
  | includeRefused (path : String)
  | unreadable (path : Path) (reason : Unreadable)
  deriving DecidableEq, Repr

abbrev SourceError := Located SourceFault

def SourceFault.message : SourceFault → String
  | text fault => s!"syntax error: {fault.message}"
  | unknownStatement head =>
    s!"invalid top-level tag '{head}', expected define, transform or include_file"
  | argumentCount head expected actual => s!"'{head}' expects {expected} argument(s), got {actual}"
  | unknownHead context head => s!"unknown {context.text} constructor '{head}'"
  | unknownArity head => s!"expected '?' or '*' as type reference arity tag, found '{head}'"
  | fieldShape => "record elements must have the form (tag type)"
  | wanted what found => s!"expected {what.text}, found {found.text}"
  | minimumOutOfRange value =>
    s!"minimum arity must be a non-negative 32-bit integer, found {value}"
  | missingIdentifier => "product element is missing its identifier annotation"
  | manyIdentifiers => "element has more than one identifier annotation"
  | includeMissing path searched =>
    s!"include file '{path}' not found, searched: " ++ ", ".intercalate (searched.map Path.text)
  | includeRefused path =>
    s!"invalid include path '{path}': only relative paths of [A-Za-z0-9_.-] segments " ++
      "without '.' or '..' are allowed"
  | unreadable path reason => s!"cannot read '{path.text}': {reason.message}"

def SourceError.message (e : SourceError) : String := s!"{e.location.text}: {e.cause.message}"

def TextError.toSource (e : TextError) : SourceError := ⟨.text e.cause, e.location⟩

end TypeDomains
