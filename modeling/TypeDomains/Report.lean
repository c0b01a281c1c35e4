import TypeDomains.Compilation
import TypeDomains.Model.Writing

/-!
# Reports

What a compilation is shown as: a line for each domain and each transform, or the domains as source
text.
-/

namespace TypeDomains

/-- The names in parentheses. -/
def listed (names : List String) : String := "(" ++ ", ".intercalate names ++ ")"

def Domain.line (d : Domain) : String :=
  s!"domain {d.tag}: {d.types.length} types {listed (d.types.map DataType.tag)}"

def Transform.line (t : Transform) (difference : Domain) : String :=
  let flagged := difference.types.filter DataType.different
  let shared := difference.types.length
  s!"transform {t.source} -> {t.destination}: {flagged.length} of {shared} shared types differ" ++
    if flagged.isEmpty then "" else " " ++ listed (flagged.map DataType.tag)

namespace Compilation

def lines (c : Compilation) : List String :=
  c.domains.map Domain.line ++ (c.source.transforms.zip c.differences).map fun (t, d) => t.line d

def summary (c : Compilation) : String := "\n".intercalate c.lines

/-- The domains alone, with every permutation carried out. -/
def domainsOnly (c : Compilation) : Universe := ⟨c.domains.map .domain⟩

def printed (c : Compilation) : String := .ofList c.domainsOnly.written

end Compilation

end TypeDomains
