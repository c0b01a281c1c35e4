import TypeDomains.CommandLine

/-!
# The program

Runs a command line against the disk. What the expansion asks for is loaded into a file system
value until it asks for nothing new; from then on that value answers as the disk does.
-/

namespace TypeDomains

/-- What the disk holds at a place whose directory is no link. -/
def onDisk (p : Place) : IO (Option Entry) := do
  match ← (IO.FS.realPath p.path.text).toBaseIO with
  | .error _ => return none
  | .ok real =>
    if real.toString ≠ p.path.text then return some (.link ⟨real.toString⟩)
    if ← real.isDir then return some .directory
    match ← (IO.FS.readBinFile real).toBaseIO with
    | .ok bytes => return some (.file (.ofBytes bytes))
    | .error _ => return some (.file .bytes)

/-- Loads what stands at a place. -/
def loadPlace (fs : FileSystem) (p : Place) : IO FileSystem := do
  if (fs.entries.lookup p).isSome then return fs
  match ← onDisk p with
  | some e => return { fs with entries := (p, e) :: fs.entries }
  | none => return fs

/-- Loads all that a path passes on its way from `here`. -/
def loadFrom (fs : FileSystem) (here : Place) : List String → IO FileSystem
  | [] => return fs
  | segment :: rest =>
    if segment = "" || segment = "." then loadFrom fs here rest
    else if segment = ".." then loadFrom fs here.parent rest
    else do
      let there := here.child segment
      let fs ← loadPlace fs there
      match fs.entries.lookup there with
      | some (.link target) =>
        let real : Place := ⟨target.names⟩
        loadFrom (← loadPlace fs real) real rest
      | _ => loadFrom fs there rest

def load (fs : FileSystem) (p : Path) : IO FileSystem :=
  loadFrom fs (fs.start p) p.segments

/-- The expansion of a command line's file, where `known` are the paths loaded so far. -/
partial def expandFromDisk (c : CommandLine) (fs : FileSystem) (known : List Path) :
    IO Expansion := do
  let x := c.expansion fs
  let fresh := x.asked.filter (!known.contains ·)
  if fresh.isEmpty then return x
  expandFromDisk c (← fresh.foldlM load fs) (fresh ++ known)

def CommandLine.Outcome.report (o : CommandLine.Outcome) : IO UInt32 := do
  o.complaints.forM fun line => IO.eprintln line
  IO.print o.output
  return .ofNat o.status

end TypeDomains

open TypeDomains in
def main (arguments : List String) : IO UInt32 := do
  match CommandLine.ofArguments arguments (← IO.getEnv CommandLine.searchVariable) with
  | .error refusal => refusal.outcome.report
  | .ok c =>
    let x ← expandFromDisk c ⟨[], ⟨(← IO.currentDir).toString⟩⟩ []
    (c.outcome (c.answer x)).report

