import TypeDomains.Lexical.Name
import TypeDomains.Model

/-!
# Models as source text

The text that declares a model, laid out one type, variant or alteration to a line.
-/

namespace TypeDomains

/-- A new line, indented by `depth` steps. -/
def lineBreak (depth : Nat) : List Char := '\n' :: List.replicate (2 * depth) ' '

/-- The names on one line, each behind a blank. -/
def Ident.writtenAll (is : List Ident) : List Char :=
  is.flatMap fun i => ' ' :: Name.written i.name

def TypeRef.written (r : TypeRef) : List Char :=
  match r.arity with
  | .required => Name.written r.name
  | .optional => "(? ".toList ++ Name.written r.name ++ [')']
  | .variadic min =>
    "(* ".toList ++ Name.written r.name ++ ' ' :: Nat.toDigits 10 min.toNat ++ [')']

def Element.written (kind : TupleKind) (e : Element) : List Char :=
  match kind with
  | .product => Name.written e.identifier ++ "::".toList ++ e.type.written
  | .record =>
    (if e.identifier = e.tag then [] else Name.written e.identifier ++ "::".toList) ++
      '(' :: Name.written e.tag ++ ' ' :: e.type.written ++ [')']

/-- The tag and the elements, as they stand behind a keyword or an opening parenthesis. -/
def Tuple.body (t : Tuple) : List Char :=
  Name.written t.tag ++ t.elements.flatMap fun e => ' ' :: e.written t.kind

def Tuple.writtenAsVariant (t : Tuple) : List Char := '(' :: t.body ++ [')']

/-- The variants on lines of their own. -/
def Tuple.writtenAsVariants (depth : Nat) (ts : List Tuple) : List Char :=
  ts.flatMap fun t => lineBreak depth ++ t.writtenAsVariant

def DataType.written (depth : Nat) : DataType → List Char
  | builtin b => b.tag.toList
  | tuple t => '(' :: t.kind.keyword.toList ++ ' ' :: t.body ++ [')']
  | sum s =>
    "(sum ".toList ++ Name.written s.tag ++ Tuple.writtenAsVariants (depth + 1) s.variants ++ [')']

/-- The types on lines of their own. -/
def DataType.writtenAll (depth : Nat) (ts : List DataType) : List Char :=
  ts.flatMap fun t => lineBreak depth ++ t.written depth

def Domain.written (d : Domain) : List Char :=
  "(define ".toList ++ Name.written d.tag ++ lineBreak 1 ++ "(domain".toList ++
    DataType.writtenAll 2 d.types ++ "))".toList

/-- An alteration on a line of its own, left out where it alters nothing. -/
def alteration (depth : Nat) (keyword : String) (arguments : List Char) : List Char :=
  if arguments = [] then [] else lineBreak depth ++ '(' :: keyword.toList ++ arguments ++ [')']

def SumChange.written (s : SumChange) : List Char :=
  "(with ".toList ++ Name.written s.tag ++
    alteration 3 "exclude" (Ident.writtenAll s.removed) ++
    alteration 3 "include" (Tuple.writtenAsVariants 4 s.added) ++ [')']

def Permutation.written (p : Permutation) : List Char :=
  "(define ".toList ++ Name.written p.tag ++ lineBreak 1 ++ "(permute_domain ".toList ++
    Name.written p.base ++ alteration 2 "exclude" (Ident.writtenAll p.excluded) ++
    alteration 2 "include" (DataType.writtenAll 3 p.included) ++
    (p.sums.flatMap fun s => lineBreak 2 ++ s.written) ++ "))".toList

def Transform.written (t : Transform) : List Char :=
  "(transform ".toList ++ Name.written t.source ++ ' ' :: Name.written t.destination ++ [')']

def Statement.written : Statement → List Char
  | domain d => d.written
  | permutation p => p.written
  | transform t => t.written

def Universe.written (u : Universe) : List Char :=
  ['\n', '\n'].intercalate (u.statements.map Statement.written)

end TypeDomains
