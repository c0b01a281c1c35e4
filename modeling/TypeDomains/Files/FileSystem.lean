import TypeDomains.Files.Path

/-!
# File systems

A file system as a finite value: what stands at which place, and the directory that relative paths
start from. A directory exists if it is listed or if something lies below it. Looking up a path
follows symbolic links, at most forty on the way; names have at most 255 bytes, and a path that is
asked about as a whole at most 4095.
-/

namespace TypeDomains

/-- What a file holds: text, or bytes that are no text. -/
inductive Content where
  | text (s : String)
  | bytes
  deriving DecidableEq, Repr

def Content.ofBytes (b : ByteArray) : Content :=
  match String.fromUTF8? b with
  | some s => text s
  | none => bytes

inductive Entry where
  | file (content : Content)
  | directory
  | link (target : Path)
  deriving DecidableEq, Repr

/-- Why a path cannot be read. -/
inductive Unreadable where
  | notFound
  | notDirectory
  | isDirectory
  | nameTooLong
  | tooManyLinks
  | zeroInPath
  | notText
  deriving DecidableEq, Repr

def Unreadable.message : Unreadable → String
  | notFound => "No such file or directory (os error 2)"
  | notDirectory => "Not a directory (os error 20)"
  | isDirectory => "Is a directory (os error 21)"
  | nameTooLong => "File name too long (os error 36)"
  | tooManyLinks => "Too many levels of symbolic links (os error 40)"
  | zeroInPath => "file name contained an unexpected NUL byte"
  | notText => "stream did not contain valid UTF-8"

structure FileSystem where
  entries : List (Place × Entry)
  workingDirectory : Path
  deriving Repr

namespace FileSystem

/-- The working directory, whose path passes no link. -/
def here (fs : FileSystem) : Place := fs.workingDirectory.names.foldl .enter .root

/-- Where the lookup of a path starts. -/
def start (fs : FileSystem) (p : Path) : Place := if p.isRooted then .root else fs.here

def entry? (fs : FileSystem) (p : Place) : Option Entry :=
  match fs.entries.lookup p with
  | some e => some e
  | none =>
    if p = .root || p.holds fs.here || fs.entries.any (p.holds ·.1) then
      some .directory
    else none

def mostLinks : Nat := 40

def longestName : Nat := 255

/-- The most bytes of a path that is asked about as a whole. -/
def longestPath : Nat := 4095

/-- Goes on from `here`, where no link stands, along the segments that remain. -/
def walk (fs : FileSystem) (links : Nat) (here : Place) : List String → Except Unreadable Place
  | [] => .ok here
  | segment :: rest =>
    if fs.entry? here ≠ some .directory then .error .notDirectory
    else if segment = "" || segment = "." then walk fs links here rest
    else if segment = ".." then walk fs links here.parent rest
    else if segment.utf8ByteSize > longestName then .error .nameTooLong
    else
      match fs.entry? (here.child segment) with
      | none => .error .notFound
      | some (.link target) =>
        match links with
        | 0 => .error .tooManyLinks
        | fewer + 1 =>
          walk fs fewer (if target.isRooted then .root else here) (target.segments ++ rest)
      | some _ => walk fs links (here.child segment) rest
termination_by segments => (links, segments.length)

/-- The place that a path leads to. It is reached name by name, so any number of names will do as
long as the path of the place itself has at most `longestPath` bytes. A system refuses places with
longer paths; that limit is left out here. -/
def locate (fs : FileSystem) (p : Path) : Except Unreadable Place :=
  if p.text.isEmpty then .error .notFound
  else if p.text.toList.contains '\x00' then .error .zeroInPath
  else fs.walk mostLinks (fs.start p) p.segments

/-- The place that a path leads to, if a file stands there and the path is not too long to be asked
about. -/
def file? (fs : FileSystem) (p : Path) : Option Place :=
  if p.text.utf8ByteSize > longestPath then none
  else
    match fs.locate p with
    | .error _ => none
    | .ok place =>
      match fs.entry? place with
      | some (.file _) => some place
      | _ => none

def read (fs : FileSystem) (p : Place) : Except Unreadable String :=
  match fs.entry? p with
  | some (.file (.text s)) => .ok s
  | some (.file .bytes) => .error .notText
  | some .directory => .error .isDirectory
  | _ => .error .notFound

end FileSystem

end TypeDomains
