import TypeDomains.Lexical.Fault

/-!
# Quoted literals

Text between two equal quotes. A backslash and one of `n t r 0 " ' \ /` stand for a single
character, and a newline ends the hope of a closing quote.
-/

namespace TypeDomains.Quoted

def escape : Char → Option Char
  | 'n' => some '\n'
  | 't' => some '\t'
  | 'r' => some '\r'
  | '0' => some '\x00'
  | '"' => some '"'
  | '\'' => some '\''
  | '\\' => some '\\'
  | '/' => some '/'
  | _ => none

/-- The location of an escape that means nothing. It is two columns left of the place behind it,
so a backslash in front of a newline is blamed on column zero of the next line. -/
def blame (l : Location) (c : Char) : Location :=
  let behind := l.after ['\\', c]
  ⟨behind.file, behind.line, behind.column - 2⟩

/-- Reads on behind the opening quote at `opened`: the text up to the closing quote, decoded, and
the place behind it. -/
def read (quote : Quote) (opened : Location) :
    Location → List Char → Except TextError (List Char × Cursor)
  | _, [] => .error ⟨.openQuote quote, opened⟩
  | _, ['\\'] => .error ⟨.openEscape, opened⟩
  | l, '\\' :: c :: cs =>
    match escape c with
    | some d => (read quote opened (l.after ['\\', c]) cs).map fun (ds, k) => (d :: ds, k)
    | none => .error ⟨.unknownEscape c, blame l c⟩
  | l, c :: cs =>
    if c = quote.mark then .ok ([], ⟨l.next c, cs⟩)
    else if c = '\n' then .error ⟨.openQuote quote, opened⟩
    else (read quote opened (l.next c) cs).map fun (ds, k) => (c :: ds, k)

theorem read_length {quote : Quote} {opened l : Location} {cs ds : List Char} {k : Cursor}
    (h : read quote opened l cs = .ok (ds, k)) : k.rest.length < cs.length := by
  fun_induction read quote opened l cs generalizing ds with
  | case1 | case2 | case4 | case6 => simp at h
  | case3 l c cs d hd ih =>
    cases hr : read quote opened (l.after ['\\', c]) cs with
    | error e => simp [hr, Except.map] at h
    | ok p => grind [Except.map]
  | case5 => grind
  | case7 l c cs _ _ _ _ ih =>
    cases hr : read quote opened (l.next c) cs with
    | error e => simp [hr, Except.map] at h
    | ok p => grind [Except.map]

end TypeDomains.Quoted
