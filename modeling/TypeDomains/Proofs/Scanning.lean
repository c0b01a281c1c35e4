import TypeDomains.Token
import TypeDomains.Proofs.Quotations

/-!
# Scanning what was written

Which tokens a text has, whatever its location (`Scans`), and which tokens a piece of text adds in
front of a separator (`Lexes`). Names and numbers that were written are read back as they were
(`lexes_name`, `lexes_digits`).
-/

namespace TypeDomains

/-! ## Separators -/

/-- No name, number or operator goes on with this character. -/
def separates (c : Char) : Bool := isBlank c || c = '(' || c = ')' || c = ':'

/-- The text is at its end or goes on with a separator. -/
def Ends (cs : List Char) : Prop := ∀ c ∈ cs.head?, separates c

theorem ends_nil : Ends [] := by simp [Ends]

theorem ends_cons {c : Char} {cs : List Char} : Ends (c :: cs) ↔ separates c := by simp [Ends]

theorem Ends.append {cs ds : List Char} (hc : Ends cs) (hd : Ends ds) : Ends (cs ++ ds) := by
  cases cs with
  | nil => exact hd
  | cons c cs => exact ends_cons.2 (ends_cons.1 hc)

theorem code_of_isBlank {c : Char} (h : isBlank c) : c.toNat ≤ 0x20 ∨ 0x85 ≤ c.toNat := by
  simp only [isBlank, blankRanges, List.any_cons, List.any_nil, Bool.or_eq_true, Bool.and_eq_true,
    decide_eq_true_eq, Bool.or_false] at h
  omega

theorem code_of_continues {c : Char} (h : Name.continues c) :
    0x21 ≤ c.toNat ∧ c.toNat < 0x7F := by
  simp only [Name.continues, Bool.or_eq_true, decide_eq_true_eq, Name.isAlphanum_iff,
    Name.isAlpha_iff, Char.isDigit_iff_toNat, Char.reduceToNat] at h
  rcases h with ((letter | digit) | rfl) | rfl
  · omega
  · omega
  · decide
  · decide

theorem code_of_isOperator {c : Char} (h : Lexeme.isOperator c) :
    0x21 ≤ c.toNat ∧ c.toNat < 0x7F := by
  have all : "!#%&*+-./;<=>?@^`|~".toList.all fun d => 0x21 ≤ d.toNat && d.toNat < 0x7F := by
    decide
  have bounds := List.all_eq_true.1 all c (by simpa [Lexeme.isOperator] using h)
  simpa using bounds

/-- What a name or an operator goes on with does not separate it from anything. -/
theorem not_separates {c : Char} (h : Name.continues c ∨ Lexeme.isOperator c) : ¬separates c := by
  simp only [separates, Bool.or_eq_true, decide_eq_true_eq]
  rintro (((hc | rfl) | rfl) | rfl)
  · have blank := code_of_isBlank hc
    have visible := h.elim code_of_continues code_of_isOperator
    omega
  · revert h
    decide
  · revert h
    decide
  · revert h
    decide

/-- A character class that only holds what names and operators are made of ends at a separator. -/
theorem Ends.stops {cs : List Char} (h : Ends cs) {p : Char → Bool}
    (hp : ∀ c, p c → Name.continues c ∨ Lexeme.isOperator c) : ∀ c ∈ cs.head?, p c = false := by
  intro c hc
  by_contra hpc
  exact not_separates (hp c (by simpa using hpc)) (h c hc)

/-! ## Scanning -/

/-- The text has these lexemes, wherever it stands. -/
def Scans (cs : List Char) (xs : List Lexeme) : Prop :=
  ∀ l, ∃ ts, Tokens.scan l cs = .ok ts ∧ ts.tokens.map Token.lexeme = xs

theorem scans_nil : Scans [] [] := by
  intro l
  rw [Tokens.scan_eq]
  exact ⟨_, rfl, rfl⟩

theorem Scans.blank {c : Char} {cs : List Char} {xs : List Lexeme} (hc : isBlank c)
    (h : Scans cs xs) : Scans (c :: cs) xs := by
  intro l
  have hslash : c ≠ '/' := by
    rintro rfl
    revert hc
    decide
  have skip : Gap.blank.skip l (c :: cs) = Gap.blank.skip (l.next c) cs := by
    rw [Gap.skip.eq_def]
    split <;> simp_all
  rw [Tokens.scan_eq, Tokens.step, skip, ← Tokens.step, ← Tokens.scan_eq]
  exact h _

theorem Scans.token {c : Char} {cs rest : List Char} {x : Lexeme} {xs : List Lexeme}
    (hblank : isBlank c = false) (hslash : c ≠ '/')
    (hx : ∀ l, ∃ m, Lexeme.read l c cs = .ok (x, ⟨m, rest⟩)) (h : Scans rest xs) :
    Scans (c :: cs) (x :: xs) := by
  intro l
  have skip : Gap.blank.skip l (c :: cs) = .ok ⟨l, c :: cs⟩ := by
    rw [Gap.skip.eq_def]
    split <;> simp_all
  obtain ⟨m, hx⟩ := hx l
  obtain ⟨ts, hts, rfl⟩ := h m
  rw [Tokens.scan_eq, Tokens.step, skip]
  simp only [hx, hts]
  exact ⟨_, rfl, rfl⟩

/-! ## Pieces of a text -/

/-- The piece adds these lexemes in front of a separator. -/
def Lexes (w : List Char) (xs : List Lexeme) : Prop :=
  ∀ cs ys, Ends cs → Scans cs ys → Scans (w ++ cs) (xs ++ ys)

namespace Lexes

variable {v w : List Char} {xs ys : List Lexeme} {c : Char}

theorem nil : Lexes [] [] := fun _ _ _ h => h

theorem append (hw : Lexes w xs) (hv : Lexes v ys) (ends : Ends v) :
    Lexes (w ++ v) (xs ++ ys) := by
  intro cs zs hcs h
  rw [List.append_assoc, List.append_assoc]
  exact hw _ _ (ends.append hcs) (hv cs zs hcs h)

theorem blank (hc : isBlank c) (hw : Lexes w xs) : Lexes (c :: w) xs :=
  fun cs ys hcs h => (hw cs ys hcs h).blank hc

theorem blanks (hv : ∀ c ∈ v, isBlank c) (hw : Lexes w xs) : Lexes (v ++ w) xs := by
  induction v with
  | nil => exact hw
  | cons c v ih =>
    obtain ⟨hc, hv⟩ := List.forall_mem_cons.1 hv
    exact (ih hv).blank hc

theorem parentheses (hw : Lexes w xs) :
    Lexes ('(' :: w ++ [')']) (.opening :: xs ++ [.closing]) := by
  intro cs ys hcs h
  have behind : Scans (')' :: cs) (.closing :: ys) :=
    h.token (by decide) (by decide) fun l => ⟨_, by simp [Lexeme.read]; rfl⟩
  have inside := hw _ _ (ends_cons.2 (by decide)) behind
  simp only [List.cons_append, List.append_assoc, List.nil_append]
  exact inside.token (by decide) (by decide) fun l => ⟨_, by simp [Lexeme.read]; rfl⟩

/-- A piece that is one token. -/
theorem of_read {x : Lexeme} (hblank : isBlank c = false) (hslash : c ≠ '/')
    (hx : ∀ cs, Ends cs → ∀ l, ∃ m, Lexeme.read l c (w ++ cs) = .ok (x, ⟨m, cs⟩)) :
    Lexes (c :: w) [x] := by
  intro cs ys hcs h
  exact h.token hblank hslash (hx cs hcs)

end Lexes

/-! ## Names -/

/-- The token that a written name is. -/
def Name.lexeme (name : String) : Lexeme :=
  if isPlain name.toList then .symbol name else .quoted name

theorem Name.starts_not_isDigit {c : Char} (h : starts c) : c.isDigit = false := by
  by_contra hd
  simp only [starts, Bool.or_eq_true, decide_eq_true_eq, Bool.not_eq_false, isAlpha_iff,
    Char.isDigit_iff_toNat, Char.reduceToNat] at h hd
  rcases h with (letter | rfl) | rfl
  · omega
  · revert hd
    decide
  · revert hd
    decide

theorem Name.continues_of_starts {c : Char} (h : starts c) : continues c := by
  simp only [starts, continues, Bool.or_eq_true, isAlphanum_iff] at h ⊢
  tauto

theorem Name.continues_of_isDigit {c : Char} (h : c.isDigit) : continues c := by
  simp only [continues, Bool.or_eq_true, isAlphanum_iff, h, or_true, true_or]

/-- What names go on with is no space, and starts nothing that is not a name or a number. -/
theorem Name.apart_of_continues {c : Char} (h : continues c) :
    isBlank c = false ∧ c ≠ '/' ∧ c ≠ '(' ∧ c ≠ ')' ∧ c ≠ ':' ∧ c ≠ '"' ∧ c ≠ '\'' ∧ c ≠ '-' := by
  have apart : ¬separates c := not_separates (.inl h)
  have blank : isBlank c = false := by
    by_contra hc
    exact apart (by simp [separates, hc])
  have other {d : Char} (hd : continues d = false) : c ≠ d := by
    rintro rfl
    simp [h] at hd
  exact ⟨blank, other (by decide), other (by decide), other (by decide), other (by decide),
    other (by decide), other (by decide), other (by decide)⟩

namespace Lexeme

variable {c : Char}

theorem read_digit (hc : c.isDigit) (l : Location) (cs : List Char) :
    read l c cs = readInteger l false l (c :: cs) := by
  have apart := (Name.apart_of_continues (Name.continues_of_isDigit hc)).2.2
  simp only [read, apart, hc, false_and, ↓reduceIte]

theorem read_start (hc : Name.starts c) (l : Location) (cs : List Char) :
    read l c cs = .ok (readRun symbol Name.continues l c cs) := by
  have apart := (Name.apart_of_continues (Name.continues_of_starts hc)).2.2
  have digit : c.isDigit = false := Name.starts_not_isDigit hc
  simp only [read, apart, digit, hc, false_and, Bool.false_eq_true, ↓reduceIte]

end Lexeme

theorem Name.read_plain {c : Char} {cs rest : List Char} (h : isPlain (c :: cs)) (ends : Ends rest)
    (l : Location) : Lexeme.read l c (cs ++ rest) =
      .ok (.symbol (.ofList (c :: cs)), ⟨l.after (c :: cs), rest⟩) := by
  simp only [isPlain, Bool.and_eq_true] at h
  obtain ⟨hc, hcs⟩ := h
  obtain ⟨htake, hdrop⟩ := takeWhile_dropWhile_append (List.all_eq_true.1 hcs)
    (ends.stops fun d hd => .inl hd)
  rw [Lexeme.read_start hc, Lexeme.readRun, htake, hdrop]

theorem Name.read_quoted (name : String) (rest : List Char) (l : Location) :
    Lexeme.read l '\'' (name.toList.flatMap escaped ++ ['\''] ++ rest) =
      .ok (.quoted name, ⟨l.after ('\'' :: (name.toList.flatMap escaped ++ ['\''])), rest⟩) := by
  have body : Quoted.read .symbol l (l.next '\'') _ = _ :=
    Quoted.read_body (body_flatMap_escaped name.toList) rest
  rw [List.append_assoc, List.singleton_append]
  simp [Lexeme.read, Lexeme.readQuoted, Quote.mark] at body ⊢
  simp [body, Lexeme.ofQuoted, Location.after]

/-- A written name starts no gap, and it is one token in front of all that ends a token. -/
theorem Name.read_written (name : String) : ∃ c cs, written name = c :: cs ∧
    isBlank c = false ∧ c ≠ '/' ∧ ∀ rest, Ends rest → ∀ l,
      Lexeme.read l c (cs ++ rest) = .ok (lexeme name, ⟨l.after (c :: cs), rest⟩) := by
  unfold written lexeme
  split
  · rename_i plain
    cases hcs : name.toList with
    | nil => simp [hcs, isPlain] at plain
    | cons c cs =>
      rw [hcs] at plain
      have starts : starts c := (Bool.and_eq_true_iff.1 plain).1
      have apart := apart_of_continues (continues_of_starts starts)
      refine ⟨c, cs, rfl, apart.1, apart.2.1, fun rest ends l => ?_⟩
      rw [read_plain plain ends, ← hcs, String.ofList_toList]
  · exact ⟨'\'', _, rfl, by decide, by decide, fun rest _ => read_quoted name rest⟩

theorem lexes_plain {c : Char} {cs : List Char} (h : Name.isPlain (c :: cs)) :
    Lexes (c :: cs) [.symbol (.ofList (c :: cs))] := by
  have starts : Name.starts c := (Bool.and_eq_true_iff.1 h).1
  have apart := Name.apart_of_continues (Name.continues_of_starts starts)
  exact .of_read apart.1 apart.2.1 fun rest ends l => ⟨_, Name.read_plain h ends l⟩

/-- Every name is read back, whatever it is. -/
theorem lexes_name (name : String) : Lexes (Name.written name) [Name.lexeme name] := by
  obtain ⟨c, cs, written, blank, slash, reads⟩ := Name.read_written name
  rw [written]
  exact .of_read blank slash fun rest ends l => ⟨_, reads rest ends l⟩

namespace Lexes

variable {v : List Char} {ys : List Lexeme}

/-- An annotation in front of its value. -/
theorem annotation (name : String) (hv : Lexes v ys) :
    Lexes (Name.written name ++ "::".toList ++ v) (Name.lexeme name :: .colons :: ys) := by
  intro cs zs hcs h
  have behind : Scans (':' :: ':' :: (v ++ cs)) (.colons :: (ys ++ zs)) :=
    (hv cs zs hcs h).token (by decide) (by decide) fun l => ⟨_, by simp [Lexeme.read]; rfl⟩
  rw [List.append_assoc, List.append_assoc]
  exact lexes_name name _ _ (ends_cons.2 (by decide)) behind

end Lexes

/-! ## Operators and numbers -/

theorem lexes_operator {c : Char} (hc : c = '?' ∨ c = '*') :
    Lexes [c] [.operator (.ofList [c])] := by
  have hblank : isBlank c = false := by rcases hc with rfl | rfl <;> decide
  have hslash : c ≠ '/' := by rcases hc with rfl | rfl <;> decide
  refine .of_read hblank hslash ?_
  intro cs hcs l
  obtain ⟨htake, hdrop⟩ := takeWhile_dropWhile_append (List.forall_mem_nil _)
    (hcs.stops (p := Lexeme.isOperator) fun d hd => .inr hd)
  have run : Lexeme.read l c ([] ++ cs) =
      .ok (Lexeme.readRun .operator Lexeme.isOperator l c ([] ++ cs)) := by
    have starts : Name.starts c = false := by rcases hc with rfl | rfl <;> decide
    have operator : Lexeme.isOperator c := by rcases hc with rfl | rfl <;> decide
    rcases hc with rfl | rfl <;> simp [Lexeme.read, starts, operator]
  rw [run, Lexeme.readRun, htake, hdrop]
  exact ⟨_, rfl⟩

theorem Integer.read_digits {n : Nat} (hn : n ≤ 9223372036854775807) {next : Option Char}
    (hnext : ∀ c ∈ next, clashes c = false) : read false (Nat.toDigits 10 n) next = .ok n := by
  have digits : ∀ c ∈ Nat.toDigits 10 n, c ≠ '_' := by
    rintro c hc rfl
    exact Nat.underscore_not_in_toDigits hc
  have clash : next.any clashes = false := by
    cases next with
    | none => rfl
    | some c => exact hnext c rfl
  have single : misplaced (Nat.toDigits 10 n) = false := by
    simp only [misplaced, Bool.or_eq_false_iff, decide_eq_false_iff_not]
    refine ⟨fun h => digits _ (List.mem_of_getLast? h) rfl, ?_⟩
    generalize Nat.toDigits 10 n = cs at digits
    fun_induction doubled cs <;> simp_all
  have magnitude : value false (Nat.toDigits 10 n) = n := by
    rw [value, if_neg (by simp), Integer.magnitude, List.filter_eq_self.2 (by simpa using digits)]
    simp
  have fits : Integer.fits n := by
    simp only [Integer.fits, Bool.and_eq_true, decide_eq_true_eq]
    omega
  simp only [read, clash, single, magnitude, fits, Bool.false_eq_true, ↓reduceIte]

theorem Integer.apart_of_continues {c : Char} (h : continues c) :
    Name.continues c ∨ Lexeme.isOperator c := by
  simp only [continues, Bool.or_eq_true, decide_eq_true_eq] at h
  rcases h with h | rfl
  · exact .inl (Name.continues_of_isDigit h)
  · exact .inl (by decide)

theorem Integer.apart_of_clashes {c : Char} (h : clashes c) :
    Name.continues c ∨ Lexeme.isOperator c := by
  simp only [clashes, Bool.or_eq_true, decide_eq_true_eq] at h
  rcases h with (h | rfl) | rfl
  · exact .inl (by simp [Name.continues, Name.isAlphanum_iff, h])
  · exact .inl (by decide)
  · exact .inr (by decide)

theorem Integer.stops {cs : List Char} (h : Ends cs) : ∀ c ∈ cs.head?, continues c = false :=
  h.stops fun _ => apart_of_continues

theorem Integer.clear {cs : List Char} (h : Ends cs) : ∀ c ∈ cs.head?, clashes c = false :=
  h.stops fun _ => apart_of_clashes

theorem lexes_digits {n : Nat} (hn : n ≤ 9223372036854775807) :
    Lexes (Nat.toDigits 10 n) [.integer n] := by
  have digits : ∀ c ∈ Nat.toDigits 10 n, c.isDigit := fun c hc =>
    Nat.isDigit_of_mem_toDigits (by decide) (by decide) hc
  have continues : ∀ c ∈ Nat.toDigits 10 n, Integer.continues c := by
    intro c hc
    simp [Integer.continues, digits c hc]
  cases hcs : Nat.toDigits 10 n with
  | nil => simp at hcs
  | cons c cs =>
    rw [hcs] at digits continues
    have hc : c.isDigit := digits c List.mem_cons_self
    have apart := Name.apart_of_continues (Name.continues_of_isDigit hc)
    refine .of_read apart.1 apart.2.1 ?_
    intro rest hrest l
    obtain ⟨htake, hdrop⟩ := takeWhile_dropWhile_append continues (Integer.stops hrest)
    have read := Integer.read_digits hn (Integer.clear hrest)
    rw [hcs] at read
    rw [Lexeme.read_digit hc, ← List.cons_append]
    simp only [Lexeme.readInteger, htake, hdrop, read]
    exact ⟨_, rfl⟩

end TypeDomains
