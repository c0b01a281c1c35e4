import TypeDomains.Lexical.Gap
import TypeDomains.Lexical.Integer
import TypeDomains.Lexical.Name
import TypeDomains.Lexical.Quoted

/-!
# Tokens

The tokens of a text with their locations. Every token takes at least one character, which is why
the scan comes to an end.
-/

namespace TypeDomains

inductive Lexeme where
  | opening
  | closing
  | colons
  | symbol (name : String)
  | quoted (name : String)
  | operator (name : String)
  | integer (value : Int)
  | string (text : String)
  deriving DecidableEq, Repr

structure Token where
  lexeme : Lexeme
  location : Location
  deriving DecidableEq, Repr

/-- The tokens of a whole text and the place where it ends. -/
structure Tokens where
  tokens : List Token
  stop : Location
  deriving DecidableEq, Repr

namespace Lexeme

def isOperator (c : Char) : Bool := "!#%&*+-./;<=>?@^`|~".toList.contains c

/-- The token made of `c` and all characters behind it that `p` admits. -/
def readRun (make : String → Lexeme) (p : Char → Bool) (l : Location) (c : Char)
    (cs : List Char) : Lexeme × Cursor :=
  let w := c :: cs.takeWhile p
  (make (.ofList w), ⟨l.after w, cs.dropWhile p⟩)

def ofQuoted : Quote → String → Lexeme
  | .string => string
  | .symbol => quoted

/-- The token that the quote at `opened` starts, read from behind it. -/
def readQuoted (quote : Quote) (opened : Location) (cs : List Char) :
    Except TextError (Lexeme × Cursor) :=
  match Quoted.read quote opened (opened.next quote.mark) cs with
  | .ok (ds, k) => .ok (ofQuoted quote (.ofList ds), k)
  | .error e => .error e

/-- The number that starts at `opened`, read from its first digit at `l` on. -/
def readInteger (opened : Location) (negative : Bool) (l : Location) (cs : List Char) :
    Except TextError (Lexeme × Cursor) :=
  let digits := cs.takeWhile Integer.continues
  let rest := cs.dropWhile Integer.continues
  match Integer.read negative digits rest.head? with
  | .ok n => .ok (integer n, ⟨l.after digits, rest⟩)
  | .error fault => .error ⟨fault, opened⟩

/-- The token that starts with `c` at `l`, and the place behind it. -/
def read (l : Location) (c : Char) (cs : List Char) : Except TextError (Lexeme × Cursor) :=
  if c = '(' then .ok (opening, ⟨l.next c, cs⟩)
  else if c = ')' then .ok (closing, ⟨l.next c, cs⟩)
  else if c = ':' ∧ cs.head? = some ':' then .ok (colons, ⟨l.after [':', ':'], cs.tail⟩)
  else if c = '"' then readQuoted .string l cs
  else if c = '\'' then readQuoted .symbol l cs
  else if c.isDigit then readInteger l false l (c :: cs)
  else if c = '-' ∧ cs.head?.any Char.isDigit then readInteger l true (l.next c) cs
  else if Name.starts c then .ok (readRun symbol Name.continues l c cs)
  else if isOperator c then .ok (readRun operator isOperator l c cs)
  else .error ⟨.unexpectedCharacter c, l⟩

theorem readQuoted_length {quote : Quote} {opened : Location} {cs : List Char} {x : Lexeme}
    {k : Cursor} (h : readQuoted quote opened cs = .ok (x, k)) : k.rest.length < cs.length := by
  unfold readQuoted at h
  split at h
  · rename_i hr
    obtain ⟨-, rfl⟩ := Prod.mk.inj (Except.ok.inj h)
    exact Quoted.read_length hr
  · simp at h

theorem readInteger_rest {opened l : Location} {negative : Bool} {cs : List Char} {x : Lexeme}
    {k : Cursor} (h : readInteger opened negative l cs = .ok (x, k)) :
    k.rest = cs.dropWhile Integer.continues := by
  simp only [readInteger] at h
  split at h
  · obtain ⟨-, rfl⟩ := Prod.mk.inj (Except.ok.inj h)
    rfl
  · simp at h

theorem read_length {l : Location} {c : Char} {cs : List Char} {x : Lexeme} {k : Cursor}
    (h : read l c cs = .ok (x, k)) : k.rest.length ≤ cs.length := by
  unfold read at h
  split at h
  · grind
  split at h
  · grind
  split at h
  · grind [List.length_tail]
  split at h
  · exact Nat.le_of_lt (readQuoted_length h)
  split at h
  · exact Nat.le_of_lt (readQuoted_length h)
  split at h
  · rename_i hd
    rw [readInteger_rest h, List.dropWhile_cons_of_pos (by simp [Integer.continues, hd])]
    exact (List.dropWhile_sublist _).length_le
  split at h
  · rw [readInteger_rest h]
    exact (List.dropWhile_sublist _).length_le
  split at h
  · grind [readRun, List.dropWhile_sublist, List.Sublist.length_le]
  split at h
  · grind [readRun, List.dropWhile_sublist, List.Sublist.length_le]
  · simp at h

end Lexeme

namespace Tokens

/-- What comes next in a text: its end, or a token and the place behind it. -/
inductive Step where
  | stop (l : Location)
  | token (t : Token) (behind : Cursor)
  deriving DecidableEq, Repr

def step (l : Location) (cs : List Char) : Except TextError Step :=
  match Gap.blank.skip l cs with
  | .error e => .error e
  | .ok ⟨here, []⟩ => .ok (.stop here)
  | .ok ⟨here, c :: rest⟩ =>
    match Lexeme.read here c rest with
    | .error e => .error e
    | .ok (x, k) => .ok (.token ⟨x, here⟩ k)

theorem step_length {l : Location} {cs : List Char} {t : Token} {k : Cursor}
    (h : step l cs = .ok (.token t k)) : k.rest.length < cs.length := by
  unfold step at h
  split at h
  · simp at h
  · simp at h
  · rename_i hk
    have gap := Gap.skip_length hk
    split at h
    · simp at h
    · rename_i hx
      have token := Lexeme.read_length hx
      obtain ⟨-, rfl⟩ := Step.token.inj (Except.ok.inj h)
      simp only [List.length_cons] at gap
      omega

def push (t : Token) (ts : Tokens) : Tokens := ⟨t :: ts.tokens, ts.stop⟩

/-- The tokens from the place `l` on. -/
def scan (l : Location) (cs : List Char) : Except TextError Tokens :=
  match _ : step l cs with
  | .error e => .error e
  | .ok (.stop here) => .ok ⟨[], here⟩
  | .ok (.token t k) => (scan k.location k.rest).map (push t)
termination_by cs.length
decreasing_by exact step_length ‹_›

theorem scan_eq (l : Location) (cs : List Char) :
    scan l cs =
      match step l cs with
      | .error e => .error e
      | .ok (.stop here) => .ok ⟨[], here⟩
      | .ok (.token t k) => (scan k.location k.rest).map (push t) := by
  rw [scan]
  split <;> simp_all

def ofText (file : Option String) (text : String) : Except TextError Tokens :=
  scan (.start file) text.toList

end Tokens

end TypeDomains
