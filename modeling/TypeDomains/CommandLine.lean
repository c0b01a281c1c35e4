import TypeDomains.Report

/-!
# The command line

The arguments of the program, and what it answers. An option may be given anywhere before a `--`.
A value that has been taken is looked at when the next argument that counts arrives, so an argument
that means nothing is reported before a bad value in front of it.
-/

namespace TypeDomains

/-- Why a command line gets no run. -/
inductive Refusal where
  | unknownArgument
  | missingArgument
  | conflict
  | invalidValue
  | tooManyValues
  | help
  | version
  deriving DecidableEq, Repr

structure CommandLine where
  file : String
  searchDirs : List String
  noTransforms : Bool
  print : Bool
  debug : Nat
  deriving DecidableEq, Repr

/-- An argument that has been taken but not looked at. -/
inductive Unsettled where
  | nothing
  | file (value : String)
  | directory (value : Option String)
  deriving DecidableEq, Repr

inductive Switch where
  | noTransforms
  | print
  | debug
  | help
  | version
  deriving DecidableEq, Repr

inductive Flag where
  | switch (s : Switch)
  | directory
  deriving DecidableEq, Repr

def Flag.short? : Char → Option Flag
  | 'I' => some directory
  | 'p' => some (switch .print)
  | 'd' => some (switch .debug)
  | 'h' => some (switch .help)
  | 'V' => some (switch .version)
  | _ => none

def Flag.long? : String → Option Flag
  | "include" => some directory
  | "no-transforms" => some (switch .noTransforms)
  | "print" => some (switch .print)
  | "debug" => some (switch .debug)
  | "help" => some (switch .help)
  | "version" => some (switch .version)
  | _ => none

/-- The arguments read so far. `searchDirs` is `none` until a directory is given. -/
structure Arguments where
  file : Option String
  searchDirs : Option (List String)
  noTransforms : Bool
  print : Bool
  debug : Nat
  unsettled : Unsettled
  onlyFiles : Bool

/-- The directories of a list with colons between them, none of them empty. -/
def directories (value : String) : Except Refusal (List String) :=
  let parts := partsAt ':' value.toList
  if parts.any List.isEmpty then .error .invalidValue else .ok (parts.map .ofList)

namespace Arguments

def none : Arguments := ⟨.none, .none, false, false, 0, .nothing, false⟩

def addDirectories (a : Arguments) (value : String) : Except Refusal Arguments := do
  return { a with searchDirs := some (a.searchDirs.getD [] ++ (← directories value)) }

/-- Looks at the argument that has been taken last. -/
def settle (a : Arguments) : Except Refusal Arguments :=
  let settled := { a with unsettled := .nothing }
  match a.unsettled with
  | .nothing => .ok settled
  | .file value =>
    if value.isEmpty then .error .invalidValue else .ok { settled with file := some value }
  | .directory (some value) => settled.addDirectories value
  | .directory .none => .error .invalidValue

/-- No switch but the one for debugging may be given twice, and it stops counting at 255. -/
def turn (a : Arguments) (s : Switch) : Except Refusal Arguments := do
  let a ← a.settle
  match s with
  | .noTransforms =>
    if a.noTransforms then .error .conflict else return { a with noTransforms := true }
  | .print => if a.print then .error .conflict else return { a with print := true }
  | .debug => return { a with debug := min (a.debug + 1) 255 }
  | .help => .error .help
  | .version => .error .version

/-- A directory that is part of the argument that asks for it. -/
def attach (a : Arguments) (value : String) : Except Refusal Arguments := do
  (← a.settle).addDirectories value

/-- Takes the next argument as a directory. -/
def awaitDirectory (a : Arguments) : Except Refusal Arguments := do
  return { ← a.settle with unsettled := .directory .none }

/-- Takes a file, of which there is one. -/
def takeFile (a : Arguments) (value : String) : Except Refusal Arguments :=
  match a.file, a.unsettled with
  | some _, _ | _, .file _ => .error .unknownArgument
  | .none, _ => do return { ← a.settle with unsettled := .file value }

/-- The letters behind a single dash. -/
def letters (a : Arguments) : List Char → Except Refusal Arguments
  | [] => .ok a
  | c :: cs =>
    match Flag.short? c with
    | .none => .error .unknownArgument
    | some (.switch s) => do (← a.turn s).letters cs
    | some .directory =>
      match cs with
      | [] => a.awaitDirectory
      | '=' :: value => a.attach (.ofList value)
      | value => a.attach (.ofList value)

/-- The word behind two dashes, and what an equals sign puts behind it. -/
def word (a : Arguments) (name : String) (value : Option String) : Except Refusal Arguments :=
  match Flag.long? name, value with
  | .none, _ => .error .unknownArgument
  | some (.switch s), .none => a.turn s
  | some (.switch _), some _ => .error .tooManyValues
  | some .directory, .none => a.awaitDirectory
  | some .directory, some value => a.attach value

def cutAtEquals (cs : List Char) : String × Option String :=
  match cs.dropWhile (· ≠ '=') with
  | [] => (.ofList cs, .none)
  | _ :: value => (.ofList (cs.takeWhile (· ≠ '=')), some (.ofList value))

/-- An argument that is no option: the directory that is awaited, or a file. -/
def plain (a : Arguments) (value : String) : Except Refusal Arguments :=
  match a.unsettled with
  | .directory .none =>
    if a.onlyFiles then a.takeFile value
    else .ok { a with unsettled := .directory (some value) }
  | _ => a.takeFile value

def argument (a : Arguments) (text : String) : Except Refusal Arguments :=
  if a.onlyFiles then a.plain text
  else
    match text.toList with
    | ['-', '-'] => .ok { a with onlyFiles := true }
    | '-' :: '-' :: cs => let (name, value) := cutAtEquals cs; a.word name value
    | '-' :: c :: cs => a.letters (c :: cs)
    | _ => a.plain text

/-- The command line in full. The list `fallback` counts where no directory is given. -/
def finish (a : Arguments) (fallback : Option String) : Except Refusal CommandLine := do
  let a ← a.settle
  let dirs ← match a.searchDirs, fallback with
    | some dirs, _ => pure dirs
    | .none, some value => directories value
    | .none, .none => pure []
  match a.file with
  | some file => return ⟨file, dirs, a.noTransforms, a.print, a.debug⟩
  | .none => .error .missingArgument

end Arguments

namespace CommandLine

/-- The environment variable with the directories to search where no argument names one. -/
def searchVariable : String := "TYDL_INCLUDE_PATH"

def ofArguments (arguments : List String) (fallback : Option String) :
    Except Refusal CommandLine := do
  (← arguments.foldlM Arguments.argument .none).finish fallback

def sources (c : CommandLine) (files : FileSystem) : Sources := ⟨files, c.searchDirs.map .mk⟩

def expansion (c : CommandLine) (files : FileSystem) : Expansion :=
  (c.sources files).ofFile ⟨c.file⟩

/-- What the program says about an expanded source. -/
def answer (c : CommandLine) (x : Expansion) : Except CompileError String := do
  let compilation ← Compilation.ofExpansion (!c.noTransforms) x
  return if c.print then compilation.printed else compilation.summary

def run (c : CommandLine) (files : FileSystem) : Except CompileError String :=
  c.answer (c.expansion files)

/-- What a run leaves behind: its exit status and what it writes. -/
structure Outcome where
  status : Nat
  output : String
  complaints : List String
  deriving DecidableEq, Repr

/-- Said to those who ask for more debugging than there is. -/
def remarks (c : CommandLine) : List String :=
  if c.debug ≤ 3 then [] else ["Don't be crazy, max is -d -d -d"]

def outcome (c : CommandLine) (result : Except CompileError String) : Outcome :=
  match result with
  | .ok output => ⟨0, output ++ "\n", c.remarks⟩
  | .error e => ⟨1, "", c.remarks ++ ["error: " ++ e.message]⟩

end CommandLine

def usage : String := "Usage: tydl [-I DIR]... [--no-transforms] [-p] [-d]... FILE"

/-- Asking for help or the version is a run of its own; every other refusal is bad usage. -/
def Refusal.outcome : Refusal → CommandLine.Outcome
  | help => ⟨0, usage ++ "\n", []⟩
  | version => ⟨0, "tydl\n", []⟩
  | _ => ⟨2, "", [usage]⟩

end TypeDomains
