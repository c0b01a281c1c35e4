import TypeDomains.Lexical.Blank
import TypeDomains.Lexical.Fault

/-!
# Gaps between tokens

Blanks and comments. A `//` comment ends with its line, a `/*` comment with the first `*/` behind
its two opening characters.
-/

namespace TypeDomains

/-- What the characters being skipped belong to. -/
inductive Gap where
  | blank
  | line
  | block (opened : Location)

namespace Gap

/-- Where the next token starts, or the block comment that nothing closes. -/
def skip : Gap → Location → List Char → Except TextError Cursor
  | block opened, _, [] => .error ⟨.openComment, opened⟩
  | _, l, [] => .ok ⟨l, []⟩
  | block _, l, '*' :: '/' :: cs => skip blank (l.after ['*', '/']) cs
  | block opened, l, c :: cs => skip (block opened) (l.next c) cs
  | line, l, c :: cs => skip (if c = '\n' then blank else line) (l.next c) cs
  | blank, l, '/' :: '/' :: cs => skip line (l.after ['/', '/']) cs
  | blank, l, '/' :: '*' :: cs => skip (block l) (l.after ['/', '*']) cs
  | blank, l, c :: cs => if isBlank c then skip blank (l.next c) cs else .ok ⟨l, c :: cs⟩

theorem skip_length {g : Gap} {l : Location} {cs : List Char} {k : Cursor}
    (h : g.skip l cs = .ok k) : k.rest.length ≤ cs.length := by
  fun_induction skip g l cs <;> grind [List.length_cons]

end Gap

end TypeDomains
