import TypeDomains.Proofs.Locality
import TypeDomains.Proofs.Positions

/-!
# Layout

A text that can be scanned is a row of gaps and words: between two gaps stands what one token is
spelled with. Where the text stands decides nothing but locations, so its layout says all there is
to say about its tokens (`Layout.scan_text`), and each text with tokens has one
(`Layout.exists_of_scan`).
-/

namespace TypeDomains

/-! ## Scanning elsewhere -/

/-- The same gap where the comment that it is, if it is one, was opened elsewhere. -/
def Gap.openedAt (l : Location) : Gap → Gap
  | block _ => block l
  | blank => blank
  | line => line

theorem Gap.skip_elsewhere {g : Gap} {l : Location} {cs : List Char} {k : Cursor}
    (h : g.skip l cs = .ok k) (opened l' : Location) :
    ∃ m, (g.openedAt opened).skip l' cs = .ok ⟨m, k.rest⟩ := by
  fun_induction skip g l cs generalizing opened l' with
  | case1 => simp at h
  | case2 g l open_ =>
    cases h
    refine ⟨l', ?_⟩
    cases g with
    | block o => exact absurd rfl (open_ o)
    | blank | line => rfl
  | case3 o l cs ih => exact ih h opened _
  | case4 o l c cs goes ih =>
    obtain ⟨m, hm⟩ := ih h opened (l'.next c)
    refine ⟨m, ?_⟩
    rw [openedAt, skip_block_cons]
    · exact hm
    · rintro ⟨star, slash⟩
      obtain ⟨rest, rfl⟩ := List.head?_eq_some_iff.1 slash
      exact goes rest star rfl
  | case5 l c cs ih =>
    obtain ⟨m, hm⟩ := ih h opened (l'.next c)
    refine ⟨m, ?_⟩
    rw [openedAt, skip]
    split at hm <;> simp_all [openedAt]
  | case6 l cs ih => exact ih h opened _
  | case7 l cs ih => exact ih h l' _
  | case8 l c cs noLine noBlock hblank ih =>
    obtain ⟨m, hm⟩ := ih h opened (l'.next c)
    refine ⟨m, ?_⟩
    rw [openedAt, skip, if_pos hblank]
    · exact hm
    · exact noLine
    · exact noBlock
  | case9 l c cs noLine noBlock hblank =>
    cases h
    refine ⟨l', ?_⟩
    rw [openedAt, skip, if_neg hblank]
    · exact noLine
    · exact noBlock

theorem Quoted.read_elsewhere {quote : Quote} {opened l : Location} {cs ds : List Char}
    {k : Cursor} (h : read quote opened l cs = .ok (ds, k)) (opened' l' : Location) :
    ∃ m, read quote opened' l' cs = .ok (ds, ⟨m, k.rest⟩) := by
  obtain ⟨body, rest, rfl, means, rfl⟩ := read_ok_iff.1 h
  exact ⟨_, read_body means rest⟩

namespace Lexeme

variable {l : Location} {c : Char} {cs : List Char} {x : Lexeme} {k : Cursor}

theorem readQuoted_elsewhere {quote : Quote} (h : readQuoted quote l cs = .ok (x, k))
    (l' : Location) : ∃ m, readQuoted quote l' cs = .ok (x, ⟨m, k.rest⟩) := by
  unfold readQuoted at h
  split at h
  · rename_i hr
    cases h
    obtain ⟨m, hm⟩ := Quoted.read_elsewhere hr l' (l'.next quote.mark)
    exact ⟨m, by rw [readQuoted, hm]⟩
  · simp at h

theorem readInteger_elsewhere {opened : Location} {negative : Bool}
    (h : readInteger opened negative l cs = .ok (x, k)) (opened' l' : Location) :
    ∃ m, readInteger opened' negative l' cs = .ok (x, ⟨m, k.rest⟩) := by
  simp only [readInteger] at h ⊢
  split at h
  · rename_i hn
    cases h
    exact ⟨_, rfl⟩
  · simp at h

theorem read_elsewhere (h : read l c cs = .ok (x, k)) (l' : Location) :
    ∃ m, read l' c cs = .ok (x, ⟨m, k.rest⟩) := by
  unfold read at h ⊢
  by_cases opening : c = '('
  · rw [if_pos opening] at h ⊢
    cases h
    exact ⟨_, rfl⟩
  rw [if_neg opening] at h ⊢
  by_cases closing : c = ')'
  · rw [if_pos closing] at h ⊢
    cases h
    exact ⟨_, rfl⟩
  rw [if_neg closing] at h ⊢
  by_cases colons : c = ':' ∧ cs.head? = some ':'
  · rw [if_pos colons] at h ⊢
    cases h
    exact ⟨_, rfl⟩
  rw [if_neg colons] at h ⊢
  by_cases string : c = '"'
  · rw [if_pos string] at h ⊢
    exact readQuoted_elsewhere h l'
  rw [if_neg string] at h ⊢
  by_cases quoted : c = '\''
  · rw [if_pos quoted] at h ⊢
    exact readQuoted_elsewhere h l'
  rw [if_neg quoted] at h ⊢
  by_cases digit : c.isDigit
  · rw [if_pos digit] at h ⊢
    exact readInteger_elsewhere h l' l'
  rw [if_neg digit] at h ⊢
  by_cases minus : c = '-' ∧ cs.head?.any Char.isDigit
  · rw [if_pos minus] at h ⊢
    exact readInteger_elsewhere h l' (l'.next c)
  rw [if_neg minus] at h ⊢
  by_cases name : Name.starts c
  · rw [if_pos name] at h ⊢
    cases h
    exact ⟨_, rfl⟩
  rw [if_neg name] at h ⊢
  by_cases operator : isOperator c
  · rw [if_pos operator] at h ⊢
    cases h
    exact ⟨_, rfl⟩
  · rw [if_neg operator] at h
    simp at h

end Lexeme

/-! ## Gaps and words -/

theorem Cursor.Stays.leads {α : Type} {k : Cursor} {stop : α → Cursor} {x : Except TextError α}
    {a : α} (h : k.Stays stop x) (hx : x = .ok a) : k.Leads (stop a) := by
  rwa [hx] at h

/-- What leads from one place to another is what the text has in between. -/
theorem Cursor.Leads.location_eq {l m : Location} {u rest : List Char}
    (h : Leads ⟨l, u ++ rest⟩ ⟨m, rest⟩) : m = l.after u := by
  obtain ⟨v, split, location⟩ := h
  obtain rfl : u = v := List.append_cancel_right split
  exact location

/-- In front of the rest, the scanner skips the gap, and no more. -/
def Gap.Skips (gap rest : List Char) : Prop :=
  ∀ l, blank.skip l (gap ++ rest) = .ok ⟨l.after gap, rest⟩

/-- In front of the rest, the scanner reads the word as one token. -/
def Lexeme.Reads (word : List Char) (x : Lexeme) (rest : List Char) : Prop :=
  ∃ c cs, word = c :: cs ∧ ∀ l, read l c (cs ++ rest) = .ok (x, ⟨l.after word, rest⟩)

theorem Gap.exists_skips {l m : Location} {cs rest : List Char}
    (h : blank.skip l cs = .ok ⟨m, rest⟩) : ∃ gap, cs = gap ++ rest ∧ Skips gap rest := by
  have leads : Cursor.Leads ⟨l, cs⟩ ⟨m, rest⟩ := (Tokens.stays_gap l cs).leads h
  obtain ⟨gap, rfl, -⟩ := leads
  refine ⟨gap, rfl, fun l' => ?_⟩
  obtain ⟨m', skipped⟩ := skip_elsewhere h l' l'
  have leads' : Cursor.Leads ⟨l', gap ++ rest⟩ ⟨m', rest⟩ := (Tokens.stays_gap l' _).leads skipped
  obtain rfl := leads'.location_eq
  exact skipped

theorem Lexeme.exists_reads {l : Location} {c : Char} {cs : List Char} {x : Lexeme} {k : Cursor}
    (h : read l c cs = .ok (x, k)) : ∃ word, c :: cs = word ++ k.rest ∧ Reads word x k.rest := by
  have leads : Cursor.Leads ⟨l, c :: cs⟩ k := (stays_read l c cs).leads h
  obtain ⟨word, split, -⟩ := leads
  refine ⟨word, split, ?_⟩
  change c :: cs = word ++ k.rest at split
  cases word with
  | nil =>
    have shorter := read_length h
    have longer := congrArg List.length split
    simp only [List.nil_append, List.length_cons] at longer
    omega
  | cons d word =>
    obtain ⟨rfl, rfl⟩ := List.cons.inj split
    refine ⟨c, word, rfl, fun l' => ?_⟩
    obtain ⟨m, hm⟩ := read_elsewhere h l'
    have leads' : Cursor.Leads ⟨l', c :: word ++ k.rest⟩ ⟨m, k.rest⟩ :=
      (stays_read l' c _).leads hm
    obtain rfl := leads'.location_eq
    exact hm

theorem Lexeme.Reads.ne_nil {word rest : List Char} {x : Lexeme} (h : Reads word x rest) :
    word ≠ [] := by
  obtain ⟨c, cs, rfl, -⟩ := h
  simp

/-! ## The layout of a text -/

/-- The gaps and words of a text, in order, and the lexemes that the words spell. -/
inductive Layout where
  | stop (gap : List Char)
  | token (gap word : List Char) (lexeme : Lexeme) (behind : Layout)

namespace Layout

def text : Layout → List Char
  | stop gap => gap
  | token gap word _ behind => gap ++ (word ++ behind.text)

def lexemes : Layout → List Lexeme
  | stop _ => []
  | token _ _ x behind => x :: behind.lexemes

/-- The tokens of the text where it starts at `l`. -/
def tokens (l : Location) : Layout → Tokens
  | stop gap => ⟨[], l.after gap⟩
  | token gap word x behind =>
    (behind.tokens ((l.after gap).after word)).push ⟨x, l.after gap⟩

/-- The gaps are what the scanner skips, and the words what it reads. -/
def Scanned : Layout → Prop
  | stop gap => Gap.Skips gap []
  | token gap word x behind =>
    Gap.Skips gap (word ++ behind.text) ∧ Lexeme.Reads word x behind.text ∧ behind.Scanned

variable {lay : Layout}

theorem map_lexeme_tokens (lay : Layout) (l : Location) :
    (lay.tokens l).tokens.map Token.lexeme = lay.lexemes := by
  induction lay generalizing l with
  | stop gap => rfl
  | token gap word x behind ih => exact congrArg (x :: ·) (ih _)

/-- Wherever the text stands, it has the tokens of its layout. -/
theorem scan_text (h : lay.Scanned) (l : Location) :
    Tokens.scan l lay.text = .ok (lay.tokens l) := by
  induction lay generalizing l with
  | stop gap =>
    have skipped := h l
    rw [List.append_nil] at skipped
    rw [text, Tokens.scan_eq, Tokens.step, skipped]
    rfl
  | token gap word x behind ih =>
    obtain ⟨skips, ⟨c, cs, rfl, reads⟩, rest⟩ := h
    have skipped := skips l
    rw [List.cons_append] at skipped
    rw [text, Tokens.scan_eq, Tokens.step, List.cons_append, skipped]
    simp only [reads, ih rest, Except.map]
    rfl

theorem exists_of_scan {l : Location} {cs : List Char} {ts : Tokens}
    (h : Tokens.scan l cs = .ok ts) :
    ∃ lay : Layout, lay.text = cs ∧ lay.Scanned ∧ lay.tokens l = ts := by
  -- The tokens are those of the layout then, since a scan has one outcome.
  suffices cut : ∃ lay : Layout, lay.text = cs ∧ lay.Scanned by
    obtain ⟨lay, rfl, scanned⟩ := cut
    exact ⟨lay, rfl, scanned, Except.ok.inj ((scan_text scanned l).symm.trans h)⟩
  fun_induction Tokens.scan l cs generalizing ts with
  | case1 => simp at h
  | case2 l cs here hstep =>
    unfold Tokens.step at hstep
    split at hstep
    · simp at hstep
    · rename_i hgap
      obtain ⟨gap, rfl, skips⟩ := Gap.exists_skips hgap
      exact ⟨stop gap, (List.append_nil gap).symm, skips⟩
    · split at hstep <;> simp at hstep
  | case3 l cs t k hstep ih =>
    obtain ⟨rest, hrest, -⟩ := map_ok.1 h
    obtain ⟨behind, hbehind, scanned⟩ := ih hrest
    unfold Tokens.step at hstep
    split at hstep
    · simp at hstep
    · simp at hstep
    · rename_i hgap
      obtain ⟨gap, rfl, skips⟩ := Gap.exists_skips hgap
      split at hstep
      · simp at hstep
      · rename_i x k' hx
        obtain ⟨rfl, rfl⟩ := Tokens.Step.token.inj (Except.ok.inj hstep)
        obtain ⟨word, split, reads⟩ := Lexeme.exists_reads hx
        rw [split] at skips ⊢
        rw [← hbehind] at skips reads ⊢
        exact ⟨token gap word x behind, rfl, skips, reads, scanned⟩

theorem ofText_eq {file : Option String} {text : String} (h : lay.Scanned)
    (same : lay.text = text.toList) :
    Tokens.ofText file text = .ok (lay.tokens (.start file)) := by
  rw [Tokens.ofText, ← same, scan_text h]

end Layout

end TypeDomains
