import TypeDomains.Proofs.Evaluation
import TypeDomains.Proofs.Filling
import TypeDomains.Proofs.Relocation
import TypeDomains.Proofs.Walk

/-!
# One text behind the other

Behind a newline, a text says what it says alone, only further down. The newline ends whatever the
text in front of it has left open, be it a comment, a name or a number (`Layout.scanned_before`),
and annotations do not reach over it, for none waits at the end of a text that can be read
(`SExpr.ofText_before`). So two texts, one behind the other, have the values of both, and the
statements of both (`Sources.ofText_append_newline`).
-/

namespace TypeDomains

/-! ## Further down -/

namespace Location

/-- The place as many lines further down. -/
def below (lines : Nat) (l : Location) : Location := { l with line := l.line + lines }

theorem below_next (lines : Nat) (l : Location) (c : Char) :
    (l.next c).below lines = (l.below lines).next c := by
  unfold next
  split
  · simp only [below, Location.mk.injEq, true_and, and_true]
    omega
  · rfl

theorem below_after (lines : Nat) (l : Location) (w : List Char) :
    (l.after w).below lines = (l.below lines).after w := by
  induction w generalizing l with
  | nil => rfl
  | cons c w ih =>
    change ((l.next c).after w).below lines = ((l.below lines).next c).after w
    rw [ih, below_next]

/-- Behind a text and a newline, a line starts as the text did, below all lines of the text. -/
theorem after_newline (file : Option String) (w : List Char) :
    (start file).after (w ++ ['\n']) = (start file).below (1 + w.count '\n') := by
  rw [after_start, List.rtakeWhile_concat_neg _ _ _ (by decide), List.count_append]
  simp [start, below, Nat.add_comm, Nat.add_left_comm]

theorem isKnown_after_start (file : Option String) (w : List Char) :
    ((start file).after w).isKnown := by
  rw [after_start]
  exact decide_eq_true (Nat.lt_add_right _ Nat.one_pos)

end Location

/-- The same names further down. What stands nowhere still stands nowhere. -/
def Relabelling.below (lines : Nat) : Relabelling :=
  .moving (fun l => if l.isKnown then l.below lines else l) rfl

/-! ## The seam -/

/-- A gap that nothing follows ends with a newline behind it, and another begins. -/
theorem Gap.skip_seam {g : Gap} {l m : Location} {cs : List Char} (h : g.skip l cs = .ok ⟨m, []⟩)
    (rest : List Char) : g.skip l (cs ++ '\n' :: rest) = blank.skip (m.next '\n') rest := by
  fun_induction skip g l cs with
  | case1 => simp at h
  | case2 g l open_ =>
    cases h
    cases g with
    | block opened => exact absurd rfl (open_ opened)
    | blank => exact skip_blank (by decide : isBlank '\n') _ _
    | line => rw [List.nil_append, skip, if_pos rfl]
  | case3 opened l cs ih => exact ih h
  | case4 opened l c cs goes ih =>
    rw [List.cons_append, skip_block_cons, ih h]
    -- Where the comment goes on, more than its first character is there, or it would stay open.
    rintro ⟨star, slash⟩
    cases cs with
    | nil => simp at slash
    | cons d cs =>
      obtain rfl : d = '/' := by simpa using slash
      exact goes cs star rfl
  | case5 l c cs ih =>
    rw [List.cons_append, skip]
    exact ih h
  | case6 l cs ih => exact ih h
  | case7 l cs ih => exact ih h
  | case8 l c cs _ _ hblank ih =>
    rw [List.cons_append, skip_blank hblank, ih h]
  | case9 => simp at h

theorem Follows.newline (cs rest : List Char) : Follows cs (cs ++ '\n' :: rest) := by
  cases cs with
  | nil => exact .inr (ends_cons.2 (by decide))
  | cons c cs => exact .inl rfl

namespace Layout

variable {lay next : Layout}

/-- The layout with more in its first gap. -/
def widened (gap : List Char) : Layout → Layout
  | stop g => stop (gap ++ g)
  | token g word x behind => token (gap ++ g) word x behind

/-- The layout of both texts with a newline between them. -/
def before : Layout → Layout → Layout
  | stop gap, next => next.widened (gap ++ ['\n'])
  | token gap word x behind, next => token gap word x (behind.before next)

theorem text_widened (gap : List Char) (lay : Layout) :
    (lay.widened gap).text = gap ++ lay.text := by
  cases lay with
  | stop g => rfl
  | token g word x behind => simp only [widened, text, List.append_assoc]

theorem text_before (lay next : Layout) :
    (lay.before next).text = lay.text ++ '\n' :: next.text := by
  induction lay with
  | stop gap =>
    rw [before, text_widened]
    simp [text]
  | token gap word x behind ih => simp only [before, text, ih, List.append_assoc]

/-- What is left open at the end of the one text is closed before the other begins. -/
theorem scanned_widened {gap : List Char} (hgap : Gap.Skips gap []) (h : next.Scanned) :
    (next.widened (gap ++ ['\n'])).Scanned := by
  have through (g rest : List Char) (skips : Gap.Skips g rest) :
      Gap.Skips (gap ++ ['\n'] ++ g) rest := by
    intro l
    have alone := hgap l
    rw [List.append_nil] at alone
    have seam := Gap.skip_seam alone (g ++ rest)
    simp only [List.append_assoc, List.cons_append, List.nil_append]
    rw [seam, skips, Location.after_append]
    rfl
  cases next with
  | stop g => exact through g [] h
  | token g word x behind =>
    obtain ⟨skips, reads, rest⟩ := h
    exact ⟨through g _ skips, reads, rest⟩

/-- The scanner cuts both texts where it cuts each of them. -/
theorem scanned_before (h : lay.Scanned) (hnext : next.Scanned) : (lay.before next).Scanned := by
  induction lay with
  | stop gap => exact scanned_widened h hnext
  | token gap word x behind ih =>
    obtain ⟨skips, reads, rest⟩ := h
    have follows : Follows behind.text (behind.before next).text := by
      rw [text_before]
      exact .newline behind.text next.text
    exact ⟨skips.of_follows reads.ne_nil follows, reads.of_follows follows, ih rest⟩

theorem tokens_widened (gap : List Char) (lay : Layout) (l : Location) :
    (lay.widened gap).tokens l = lay.tokens (l.after gap) := by
  cases lay with
  | stop g => simp only [widened, tokens, Location.after_append]
  | token g word x behind => simp only [widened, tokens, Location.after_append]

theorem tokens_before (lay next : Layout) (l : Location) :
    ((lay.before next).tokens l).tokens =
      (lay.tokens l).tokens ++ (next.tokens (l.after (lay.text ++ ['\n']))).tokens := by
  induction lay generalizing l with
  | stop gap =>
    rw [before, tokens_widened]
    rfl
  | token gap word x behind ih =>
    simp only [before, tokens, Tokens.push, text, List.append_assoc, ih, Location.after_append]
    rfl

/-- A text that stands elsewhere has its tokens elsewhere. -/
theorem tokens_relocate {f : Location → Location} {l m : Location}
    (move : ∀ w, f (l.after w) = m.after w) (lay : Layout) :
    (lay.tokens m).tokens = (lay.tokens l).tokens.map (Token.relocate f) := by
  induction lay generalizing l m with
  | stop gap => rfl
  | token gap word x behind ih =>
    have behind_eq := ih (l := (l.after gap).after word) (m := (m.after gap).after word) fun w => by
      simp only [← Location.after_append, move]
    simp only [tokens, Tokens.push, List.map_cons, behind_eq, Token.relocate, move]

end Layout

/-! ## Values and statements -/

namespace SExpr

variable {file : Option String} {a b : String} {vs ws : List SExpr} {f : Location → Location}

/-- The values of both texts, where `f` says how far the second has moved. -/
theorem ofText_before (ha : ofText file a = .ok vs) (hb : ofText file b = .ok ws)
    (move : ∀ w, f ((Location.start file).after w) =
      ((Location.start file).after (a.toList ++ ['\n'])).after w) :
    ofText file (a ++ "\n" ++ b) = .ok (vs ++ ws.map (relocate f)) := by
  obtain ⟨ts, hts, first⟩ := bind_ok.1 ha
  obtain ⟨us, hus, second⟩ := bind_ok.1 hb
  obtain ⟨lay, text, scanned, rfl⟩ := Layout.exists_of_scan hts
  obtain ⟨next, text', scanned', rfl⟩ := Layout.exists_of_scan hus
  have both : (lay.before next).text = (a ++ "\n" ++ b).toList := by
    rw [Layout.text_before, text, text']
    simp
  have tokens := lay.tokens_before next (.start file)
  rw [text, next.tokens_relocate move] at tokens
  rw [ofText, Layout.ofText_eq (Layout.scanned_before scanned scanned') both]
  refine ofTokens_ok.2 ?_
  rw [tokens]
  exact (ofTokens_ok.1 first).append ((ofTokens_ok.1 second).relocate f)

end SExpr

namespace Sources

variable {s : Sources} {seen : List Route} {base : Path} {file : Option String} {text : String}
  {vs : List SExpr} {xs : List Statement} {fs : List PlacedForm} {ps : List Place}

/-- Without forms that ask for files, each form gives its statement. -/
theorem Gives.statements (h : s.Gives seen fs xs ps)
    (free : ∀ f ∈ fs, f.form.head? ≠ some "include_file") :
    List.Forall₂ (fun f x => StatementForm f.form x) fs xs := by
  have asks {f : PlacedForm} {p : Place} (h : s.Includes f p) :
      f.form.head? = some "include_file" := by
    obtain ⟨literal, l, hf, -⟩ := h
    exact Form.head?_of_inclusion hf
  induction h with
  | done => exact .nil
  | statement hf _ ih =>
    exact .cons (StatementForm.iff_ofSExpr.1 hf) (ih (List.forall_mem_cons.1 free).2)
  | again hp _ _ _ => exact absurd (asks hp) (List.forall_mem_cons.1 free).1
  | file hp _ _ _ _ => exact absurd (asks hp) (List.forall_mem_cons.1 free).1

theorem gives_of_statements (h : List.Forall₂ (fun f x => StatementForm f.form x) fs xs) :
    s.Gives seen fs xs [] := by
  induction h with
  | nil => exact .done
  | cons hf _ ih => exact .statement (StatementForm.iff_ofSExpr.2 hf) ih

/-- A text without forms that ask for files comes to the statements that its values say. -/
theorem ofText_statements_iff (h : SExpr.ofText file text = .ok vs)
    (free : ∀ v ∈ vs, v.head? ≠ some "include_file") :
    (s.ofText seen base file text).statements = .ok xs ↔ List.Forall₂ StatementForm vs xs := by
  have placed : List.Forall₂ (fun f x => StatementForm f.form x)
      (vs.map (PlacedForm.mk base ·)) xs ↔ List.Forall₂ StatementForm vs xs :=
    List.forall₂_map_left_iff
  simp only [ofText, h]
  rw [← placed]
  constructor
  · intro hxs
    exact (gives_of_expand hxs).statements (List.forall_mem_map.2 free)
  · intro spelled
    exact (expand_of_gives (gives_of_statements spelled)).1

/-- No value of the text asks for a file. -/
def AsksForNothing (text : String) : Prop :=
  ∀ vs, SExpr.ofText none text = .ok vs → ∀ v ∈ vs, v.head? ≠ some "include_file"

theorem toUniverse_ofString_iff (h : SExpr.ofText none text = .ok vs)
    (free : AsksForNothing text) :
    (s.ofString text).toUniverse = .ok ⟨xs⟩ ↔ List.Forall₂ StatementForm vs xs := by
  have statements : (s.ofString text).statements = .ok xs ↔ List.Forall₂ StatementForm vs xs :=
    ofText_statements_iff h (free vs h)
  rw [Expansion.toUniverse, map_ok, ← statements]
  simp

theorem exists_values {u : Universe} (h : (s.ofString text).toUniverse = .ok u) :
    ∃ vs, SExpr.ofText none text = .ok vs := by
  cases hv : SExpr.ofText none text with
  | ok vs => exact ⟨vs, rfl⟩
  | error e => simp [ofString, ofText, hv, Expansion.toUniverse, Expansion.failed, Except.map] at h

/-- **Texts can be put together.** If two texts can be read, so can the one behind the other with a
newline between them. Its values are those of the first as they are, and those of the second, at
every depth as many lines further down as the first text has with that newline. If neither asks for
files, the statements are those of the first, and those of the second as much further down. -/
theorem ofText_append_newline (s : Sources) (a b : String) :
    (∀ file vs ws, SExpr.ofText file a = .ok vs → SExpr.ofText file b = .ok ws →
      SExpr.ofText file (a ++ "\n" ++ b) =
        .ok (vs ++ ws.map (SExpr.relocate (Location.below (1 + a.toList.count '\n'))))) ∧
    (AsksForNothing a → AsksForNothing b → ∀ xs ys,
      (s.ofString a).toUniverse = .ok ⟨xs⟩ → (s.ofString b).toUniverse = .ok ⟨ys⟩ →
        (s.ofString (a ++ "\n" ++ b)).toUniverse =
          .ok ⟨xs ++ ys.map (Statement.relabel (.below (1 + a.toList.count '\n')))⟩) := by
  have behind (file : Option String) (w : List Char) :
      ((Location.start file).after w).below (1 + a.toList.count '\n') =
        ((Location.start file).after (a.toList ++ ['\n'])).after w := by
    rw [Location.after_newline, Location.below_after]
  constructor
  · intro file vs ws ha hb
    exact SExpr.ofText_before ha hb (behind file)
  · intro freeA freeB xs ys hxs hys
    obtain ⟨vs, ha⟩ := exists_values hxs
    obtain ⟨ws, hb⟩ := exists_values hys
    have spelledA := (toUniverse_ofString_iff ha freeA).1 hxs
    have spelledB := (toUniverse_ofString_iff hb freeB).1 hys
    have move (w : List Char) : (Relabelling.below (1 + a.toList.count '\n')).place
        ((Location.start none).after w) =
          ((Location.start none).after (a.toList ++ ['\n'])).after w := by
      rw [← behind]
      exact if_pos (Location.isKnown_after_start none w)
    have both := SExpr.ofText_before ha hb move
    refine (toUniverse_ofString_iff both ?_).2 ?_
    · intro us hus
      rw [both] at hus
      obtain rfl := Except.ok.inj hus
      refine List.forall_mem_append.2 ⟨freeA vs ha, List.forall_mem_map.2 fun w hw => ?_⟩
      rw [SExpr.head?_relocate]
      exact freeB ws hb w hw
    · refine List.rel_append spelledA ?_
      exact forall₂_relocate spelledB fun _ _ statement => statement.relocate rfl

/-- The second text begins behind a comment that nothing ends, and has lines of its own. -/
theorem transforms_behind_comment :
    SExpr.ofText none ("(transform a b) // back" ++ "\n" ++ "(transform b\n x::a)") = .ok
      [.list [.atom (.symbol "transform") [] ⟨none, 1, 2⟩, .atom (.symbol "a") [] ⟨none, 1, 12⟩,
        .atom (.symbol "b") [] ⟨none, 1, 14⟩] [] ⟨none, 1, 1⟩,
      .list [.atom (.symbol "transform") [] ⟨none, 2, 2⟩, .atom (.symbol "b") [] ⟨none, 2, 12⟩,
        .atom (.symbol "a") ["x"] ⟨none, 3, 2⟩] [] ⟨none, 2, 1⟩] ∧
    ((⟨⟨[], ⟨"/"⟩⟩, []⟩ : Sources).ofString
        ("(transform a b) // back" ++ "\n" ++ "(transform b\n x::a)")).toUniverse =
      .ok ⟨[.transform ⟨"a", "b", ⟨none, 1, 1⟩⟩, .transform ⟨"b", "a", ⟨none, 2, 1⟩⟩]⟩ := by
  have first : SExpr.ofText none "(transform a b) // back" = .ok
      [.list [.atom (.symbol "transform") [] ⟨none, 1, 2⟩, .atom (.symbol "a") [] ⟨none, 1, 12⟩,
        .atom (.symbol "b") [] ⟨none, 1, 14⟩] [] ⟨none, 1, 1⟩] := by with_unfolding_all rfl
  have second : SExpr.ofText none "(transform b\n x::a)" = .ok
      [.list [.atom (.symbol "transform") [] ⟨none, 1, 2⟩, .atom (.symbol "b") [] ⟨none, 1, 12⟩,
        .atom (.symbol "a") ["x"] ⟨none, 2, 2⟩] [] ⟨none, 1, 1⟩] := by with_unfolding_all rfl
  have behind := ofText_append_newline ⟨⟨[], ⟨"/"⟩⟩, []⟩ "(transform a b) // back"
    "(transform b\n x::a)"
  refine ⟨?_, behind.2 ?_ ?_ [.transform ⟨"a", "b", ⟨none, 1, 1⟩⟩]
    [.transform ⟨"b", "a", ⟨none, 1, 1⟩⟩] ?_ ?_⟩
  · rw [behind.1 none _ _ first second]
    simp [Location.below]
  · intro vs hvs
    rw [first] at hvs
    obtain rfl := Except.ok.inj hvs
    decide
  · intro vs hvs
    rw [second] at hvs
    obtain rfl := Except.ok.inj hvs
    decide
  · rw [Evaluation.ofString_eq]
    decide +kernel
  · rw [Evaluation.ofString_eq]
    decide +kernel

end Sources

end TypeDomains
