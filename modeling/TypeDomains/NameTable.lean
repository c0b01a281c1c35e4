import TypeDomains.Location

/-!
# Name tables

The names in use while a domain is looked over. The domain's own frame is always there; frames for
the names inside a tuple come and go on top of it.
-/

namespace TypeDomains

inductive NameKind where
  | builtin
  | type
  | variant
  | element
  deriving DecidableEq, Repr

/-- Whether an element may refer to such a name. -/
def NameKind.isType : NameKind → Bool
  | builtin | type => true
  | variant | element => false

structure Binding where
  name : String
  kind : NameKind
  location : Location
  deriving DecidableEq, Repr

abbrev Frame := List Binding

/-- The frame of the domain and those on top of it, the innermost first. -/
structure NameTable where
  domain : Frame
  inner : List Frame
  deriving DecidableEq, Repr

namespace NameTable

def empty : NameTable := ⟨[], []⟩

def push (t : NameTable) : NameTable := ⟨t.domain, [] :: t.inner⟩

/-- Drops the innermost frame; the domain's stays. -/
def pop (t : NameTable) : NameTable := ⟨t.domain, t.inner.tail⟩

def binds (f : Frame) (name : String) : Bool := f.any (·.name == name)

/-- Binds a name in the innermost frame, unless that frame binds it already. -/
def define? (t : NameTable) (b : Binding) : Option NameTable :=
  match t.inner with
  | [] => if binds t.domain b.name then none else some ⟨b :: t.domain, []⟩
  | f :: fs => if binds f b.name then none else some ⟨t.domain, (b :: f) :: fs⟩

/-- What the domain's frame knows about a name. -/
def lookup? (t : NameTable) (name : String) : Option Binding :=
  t.domain.find? (·.name == name)

end NameTable

end TypeDomains
