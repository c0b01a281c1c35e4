import TypeDomains.Proofs.Declarations
import TypeDomains.Proofs.Layout
import TypeDomains.Proofs.Viability

/-!
# Filling gaps

What stands between the tokens of a text says nothing. Any gap, an empty one too, may give way to
blanks and comments, as long as a blank comes first: the words around it are read as they were
(`Layout.Relaid.scanned`), so the values are the same but for their places (`SExpr.ofText_relaid`).
-/

namespace TypeDomains

/-! ## Blanks and comments -/

/-- Blanks and comments, all of them closed. -/
inductive Filling : List Char → Prop where
  | nil : Filling []
  | blank {c g} : isBlank c → Filling g → Filling (c :: g)
  | line {body g} : '\n' ∉ body → Filling g → Filling ('/' :: '/' :: (body ++ '\n' :: g))
  | block {body g} : ¬['*', '/'] <:+: body → Filling g →
    Filling ('/' :: '*' :: (body ++ '*' :: '/' :: g))

/-- What may stand at the end of a text, where no newline has to close a comment. -/
inductive LastFilling : List Char → Prop where
  | closed {g} : Filling g → LastFilling g
  | line {g body} : Filling g → '\n' ∉ body → LastFilling (g ++ '/' :: '/' :: body)

namespace Gap

theorem skip_line {body : List Char} (h : '\n' ∉ body) (l : Location) (cs : List Char) :
    line.skip l (body ++ cs) = line.skip (l.after body) cs := by
  induction body generalizing l with
  | nil => rfl
  | cons c body ih =>
    obtain ⟨plain, rest⟩ := List.ne_and_not_mem_of_not_mem_cons h
    rw [List.cons_append, skip, if_neg (Ne.symm plain), ih rest]
    rfl

/-- A block comment is closed where it can be for the first time. -/
theorem skip_block {body : List Char} (h : ¬['*', '/'] <:+: body) (opened l : Location)
    (cs : List Char) : (block opened).skip l (body ++ '*' :: '/' :: cs) =
      blank.skip ((l.after body).after ['*', '/']) cs := by
  induction body generalizing l with
  | nil => rfl
  | cons c body ih =>
    have rest : ¬['*', '/'] <:+: body := fun inside => h (inside.trans (List.suffix_cons c body).isInfix)
    rw [List.cons_append, skip_block_cons, ih rest]
    · rfl
    -- The `*` may also be the last character of the body, but then a `*` follows, and no slash.
    · rintro ⟨rfl, slash⟩
      cases body with
      | nil => simp at slash
      | cons d body =>
        obtain rfl : d = '/' := by simpa using slash
        exact h (List.prefix_append ['*', '/'] body).isInfix

theorem skip_blank {c : Char} (h : isBlank c) (l : Location) (cs : List Char) :
    blank.skip l (c :: cs) = blank.skip (l.next c) cs := by
  have plain : c ≠ '/' := by
    rintro rfl
    revert h
    decide
  rw [skip_blank_cons (by simp [plain]), if_pos h]

/-- The scanner goes over a filling as if it were not there. -/
theorem skip_filling {g : List Char} (h : Filling g) (l : Location) (cs : List Char) :
    blank.skip l (g ++ cs) = blank.skip (l.after g) cs := by
  induction h generalizing l with
  | nil => rfl
  | blank hc _ ih =>
    rw [List.cons_append, skip_blank hc, ih]
    rfl
  | @line body g hbody _ ih =>
    simp only [List.cons_append, List.append_assoc]
    rw [skip, skip_line hbody, skip, if_pos rfl, ih]
    simp only [Location.after, List.foldl_append, List.foldl_cons, List.foldl_nil]
  | @block body g hbody _ ih =>
    simp only [List.cons_append, List.append_assoc]
    rw [skip, skip_block hbody, ih]
    simp only [Location.after, List.foldl_append, List.foldl_cons, List.foldl_nil]

theorem skips_lastFilling {g : List Char} (h : LastFilling g) : Skips g [] := by
  intro l
  cases h with
  | closed h =>
    rw [skip_filling h]
    rfl
  | @line g body h hbody =>
    have open_ := skip_line hbody ((l.after g).after ['/', '/']) []
    rw [List.append_nil] at open_
    rw [List.append_nil, skip_filling h, skip, open_, skip]
    · simp only [Location.after, List.foldl_append, List.foldl_cons, List.foldl_nil]
    · simp

/-- Behind a gap no other begins. -/
theorem skip_again {g : Gap} {l : Location} {cs : List Char} {k : Cursor}
    (h : g.skip l cs = .ok k) (m : Location) : blank.skip m k.rest = .ok ⟨m, k.rest⟩ := by
  fun_induction skip g l cs with
  | case1 => simp at h
  | case2 =>
    cases h
    rfl
  | case3 _ _ _ ih | case4 _ _ _ _ _ ih | case5 _ _ _ ih | case6 _ _ ih | case7 _ _ ih
  | case8 _ _ _ _ _ _ ih => exact ih h
  | case9 l c cs noLine noBlock hblank =>
    cases h
    rw [skip, if_neg hblank]
    · exact noLine
    · exact noBlock

/-- Where one gap ends, so does every filling. -/
theorem Skips.of_filling {gap g rest : List Char} (h : Skips gap rest) (hg : Filling g) :
    Skips g rest := by
  intro l
  rw [skip_filling hg, skip_again (h l)]

/-- A gap is skipped as long as the word behind it can still be read. -/
theorem Skips.of_follows {gap word rest rest' : List Char} (h : Skips gap (word ++ rest))
    (nonempty : word ≠ []) (follows : Follows rest rest') : Skips gap (word ++ rest') := by
  intro l
  cases word with
  | nil => exact absurd rfl nonempty
  | cons c cs =>
    obtain ⟨u, split, front⟩ := skip_front (h l)
    obtain rfl : gap = u := List.append_cancel_right split
    exact front _ (follows.of_append cs)

end Gap

theorem Lexeme.Reads.of_follows {word rest rest' : List Char} {x : Lexeme}
    (h : Reads word x rest) (follows : Follows rest rest') : Reads word x rest' := by
  obtain ⟨c, cs, rfl, reads⟩ := h
  refine ⟨c, cs, rfl, fun l => ?_⟩
  obtain ⟨u, split, front⟩ := read_front (reads l)
  obtain rfl : cs = u := List.append_cancel_right split
  exact front _ follows

/-! ## Another layout -/

/-- The text is the layout's, as the scanner cuts it. -/
def Layout.Cuts (lay : Layout) (text : String) : Prop := lay.text = text.toList ∧ lay.Scanned

def StartsBlank (g : List Char) : Prop := ∃ c ∈ g.head?, isBlank c

/-- The same words, where gaps may have been exchanged for fillings with a blank in front. -/
inductive Layout.Relaid : Layout → Layout → Prop where
  | stop {gap gap'} : gap' = gap ∨ StartsBlank gap' ∧ LastFilling gap' →
    Relaid (stop gap) (stop gap')
  | token {gap gap' word x behind behind'} : gap' = gap ∨ StartsBlank gap' ∧ Filling gap' →
    Relaid behind behind' → Relaid (token gap word x behind) (token gap' word x behind')

theorem StartsBlank.ends {g : List Char} (h : StartsBlank g) (cs : List Char) : Ends (g ++ cs) := by
  obtain ⟨c, hc, blank⟩ := h
  obtain ⟨g, rfl⟩ := List.head?_eq_some_iff.1 hc
  exact ends_cons.2 (by simp [separates, blank])

namespace Layout.Relaid

variable {lay lay' : Layout}

theorem lexemes_eq (h : Relaid lay lay') : lay'.lexemes = lay.lexemes := by
  induction h with
  | stop _ => rfl
  | @token _ _ _ x _ _ _ _ ih => exact congrArg (x :: ·) ih

/-- A new layout starts as the old one does, or with a blank. -/
theorem follows (h : Relaid lay lay') (scanned : lay.Scanned) : Follows lay.text lay'.text := by
  cases h with
  | @stop gap gap' hgap =>
    rcases hgap with rfl | ⟨blank, -⟩
    · exact .inl rfl
    · have ends := blank.ends []
      rw [List.append_nil] at ends
      exact .inr ends
  | @token gap gap' word x behind behind' hgap _ =>
    rcases hgap with rfl | ⟨blank, -⟩
    · obtain ⟨-, ⟨c, cs, rfl, -⟩, -⟩ := scanned
      left
      simp only [text, List.cons_append]
      cases gap' <;> rfl
    · exact .inr (blank.ends _)

/-- The scanner cuts the new text where the old one was cut. -/
theorem scanned (h : Relaid lay lay') (hs : lay.Scanned) : lay'.Scanned := by
  induction h with
  | stop hgap =>
    rcases hgap with rfl | ⟨-, filling⟩
    · exact hs
    · exact Gap.skips_lastFilling filling
  | @token gap gap' word x behind behind' hgap rest ih =>
    obtain ⟨skips, reads, hs⟩ := hs
    have follows := rest.follows hs
    have skips' := skips.of_follows reads.ne_nil follows
    refine ⟨?_, reads.of_follows follows, ih hs⟩
    rcases hgap with rfl | ⟨-, filling⟩
    · exact skips'
    · exact skips'.of_filling filling

end Layout.Relaid

/-! ## The same values -/

namespace SExpr

theorem ofTokens_ok {ts : Tokens} {es : List SExpr} :
    ofTokens ts = .ok es ↔ Spelled ts.tokens es := by
  constructor
  · intro h
    simpa using Reading.holds_start.run_ok h
  · exact Spelled.ofTokens

/-- The same lexemes spell the same values, wherever they stand. -/
theorem Spelled.elsewhere {ts us : List Token} {es : List SExpr} (h : Spelled ts es)
    (same : us.map Token.lexeme = ts.map Token.lexeme) :
    ∃ fs, Spelled us fs ∧ fs.map unlocated = es.map unlocated := by
  induction h generalizing us with
  | nil =>
    obtain rfl := List.map_eq_nil_iff.1 same
    exact ⟨[], .nil, rfl⟩
  | @atom x a l ts es hx _ ih =>
    obtain ⟨⟨_, m⟩, us, rfl, rfl, rest⟩ := List.map_eq_cons_iff.1 same
    obtain ⟨fs, hfs, values⟩ := ih rest
    exact ⟨_, .atom hx hfs, by simp [values]⟩
  | @list l l' ts vs es fs _ _ ihes ihfs =>
    simp only [List.cons_append, List.map_cons, List.map_append] at same
    obtain ⟨⟨_, m⟩, us, rfl, rfl, inside⟩ := List.map_eq_cons_iff.1 same
    obtain ⟨us₁, us₂, rfl, inner, behind⟩ := List.map_eq_append_iff.1 inside
    obtain ⟨⟨_, m'⟩, us₂, rfl, rfl, rest⟩ := List.map_eq_cons_iff.1 behind
    obtain ⟨es', hes', items⟩ := ihes inner
    obtain ⟨fs', hfs', values⟩ := ihfs rest
    exact ⟨_, .list hes' hfs', by simp [items, values]⟩
  | @annotated x name l l' ts e es hx _ ih =>
    obtain ⟨⟨_, m⟩, us, rfl, rfl, behind⟩ := List.map_eq_cons_iff.1 same
    obtain ⟨⟨_, m'⟩, us, rfl, rfl, rest⟩ := List.map_eq_cons_iff.1 behind
    obtain ⟨_, hfs, values⟩ := ih rest
    obtain ⟨f, fs, rfl, value, others⟩ := List.map_eq_cons_iff.1 values
    exact ⟨_, .annotated hx hfs, by simp [unlocated_annotated, value, others]⟩

variable {file : Option String} {text : String} {vs : List SExpr}

/-- **Layout does not matter.** A text with values is cut into gaps and words, the words being its
tokens; and where gaps are exchanged for blanks and comments that start with a blank, the new text
has the same values with the same annotations. -/
theorem ofText_relaid (h : ofText file text = .ok vs) :
    (∃ lay : Layout, lay.Cuts text ∧ Tokens.ofText file text = .ok (lay.tokens (.start file))) ∧
    ∀ lay : Layout, lay.Cuts text → ∀ lay', lay.Relaid lay' → ∀ file', ∃ vs',
      ofText file' (.ofList lay'.text) = .ok vs' ∧ vs'.map unlocated = vs.map unlocated := by
  obtain ⟨ts, scanned, read⟩ := bind_ok.1 h
  constructor
  · obtain ⟨lay, same, cut, rfl⟩ := Layout.exists_of_scan scanned
    exact ⟨lay, ⟨same, cut⟩, scanned⟩
  · rintro lay ⟨same, cut⟩ lay' relaid file'
    rw [Layout.ofText_eq cut same] at scanned
    obtain rfl := Except.ok.inj scanned
    have lexemes : (lay'.tokens (.start file')).tokens.map Token.lexeme =
        (lay.tokens (.start file)).tokens.map Token.lexeme := by
      rw [Layout.map_lexeme_tokens, Layout.map_lexeme_tokens, relaid.lexemes_eq]
    obtain ⟨vs', spelled, values⟩ := (ofTokens_ok.1 read).elsewhere lexemes
    have scanned' : Tokens.ofText file' (.ofList lay'.text) = .ok (lay'.tokens (.start file')) :=
      Layout.ofText_eq (relaid.scanned cut) String.toList_ofList.symm
    refine ⟨vs', ?_, values⟩
    rw [ofText, scanned']
    exact ofTokens_ok.2 spelled

/-- The layout of `a::(+ 1)`, where most gaps are empty. -/
def dense : Layout :=
  .token [] ['a'] (.symbol "a") <| .token [] [':', ':'] .colons <| .token [] ['('] .opening <|
    .token [] ['+'] (.operator "+") <| .token [' '] ['1'] (.integer 1) <|
      .token [] [')'] .closing <| .stop []

/-- The same words with comments around them, the last of them open. -/
def commented : Layout :=
  .token [] ['a'] (.symbol "a") <| .token " /*(*/".toList [':', ':'] .colons <|
    .token " // \"\n".toList ['('] .opening <| .token [] ['+'] (.operator "+") <|
      .token ['\t'] ['1'] (.integer 1) <| .token [] [')'] .closing <| .stop " //".toList

theorem ofText_relaid_commented : ∃ vs vs', ofText none "a::(+ 1)" = .ok vs ∧
    ofText none "a /*(*/:: // \"\n(+\t1) //" = .ok vs' ∧
      vs'.map unlocated = vs.map unlocated := by
  have cuts : dense.Cuts "a::(+ 1)" := by
    refine ⟨rfl, fun l => ?_, ⟨'a', [], rfl, fun l => ?_⟩, fun l => ?_,
      ⟨':', [':'], rfl, fun l => ?_⟩, fun l => ?_, ⟨'(', [], rfl, fun l => ?_⟩, fun l => ?_,
      ⟨'+', [], rfl, fun l => ?_⟩, fun l => ?_, ⟨'1', [], rfl, fun l => ?_⟩, fun l => ?_,
      ⟨')', [], rfl, fun l => ?_⟩, fun l => ?_⟩ <;> rfl
  have read : ∃ vs, ofText none "a::(+ 1)" = .ok vs := by
    rw [ofText, Layout.ofText_eq cuts.2 cuts.1]
    exact ⟨_, rfl⟩
  have spaced : StartsBlank " /*(*/".toList ∧ Filling " /*(*/".toList :=
    ⟨⟨' ', rfl, by decide⟩, .blank (by decide) (@Filling.block ['('] [] (by decide) .nil)⟩
  have ended : StartsBlank " // \"\n".toList ∧ Filling " // \"\n".toList :=
    ⟨⟨' ', rfl, by decide⟩, .blank (by decide) (@Filling.line [' ', '"'] [] (by decide) .nil)⟩
  have tab : StartsBlank ['\t'] ∧ Filling ['\t'] :=
    ⟨⟨'\t', rfl, by decide⟩, .blank (by decide) .nil⟩
  have last : StartsBlank " //".toList ∧ LastFilling " //".toList :=
    ⟨⟨' ', rfl, by decide⟩, @LastFilling.line [' '] [] (.blank (by decide) .nil) List.not_mem_nil⟩
  have relaid : dense.Relaid commented :=
    .token (.inl rfl) <| .token (.inr spaced) <| .token (.inr ended) <| .token (.inl rfl) <|
      .token (.inr tab) <| .token (.inl rfl) <| .stop (.inr last)
  obtain ⟨vs, read⟩ := read
  obtain ⟨vs', read', values⟩ := (ofText_relaid read).2 dense cuts commented relaid none
  exact ⟨vs, vs', read, read', values⟩

end SExpr

end TypeDomains
