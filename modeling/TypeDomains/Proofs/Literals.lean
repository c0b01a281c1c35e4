import Mathlib.Data.List.Induction
import Mathlib.Data.Nat.Digits.Defs
import TypeDomains.Proofs.Locality

/-!
# Literals

Which literals a text can hold and what they are read as. Quoted literals decode to what their
bodies mean, and every written name is read back as one token (`Quoted.read_exact`). Integers are
read as the number that their digits denote, or refused where they start (`Integer.step_exact`).
-/

namespace TypeDomains

/-- Where a gap ends in front of a character, that character starts the next token. -/
theorem Tokens.step_of_skip {l here : Location} {cs rest : List Char} {c : Char}
    (h : Gap.blank.skip l cs = .ok ⟨here, c :: rest⟩) :
    step l cs = (Lexeme.read here c rest).map fun (x, k) => .token ⟨x, here⟩ k := by
  rw [step, h]
  cases hx : Lexeme.read here c rest <;> simp [hx, Except.map]

/-! ## Quoted literals and written names -/

/-- A written name is the next token, whatever stands behind it that ends a token. -/
theorem Name.step_written (name : String) {rest : List Char} (ends : Ends rest) (l : Location) :
    Tokens.step l (written name ++ rest) =
      .ok (.token ⟨lexeme name, l⟩ ⟨l.after (written name), rest⟩) := by
  obtain ⟨c, cs, hw, blank, slash, reads⟩ := read_written name
  have gap : Gap.blank.skip l (c :: cs ++ rest) = .ok ⟨l, c :: (cs ++ rest)⟩ := by
    rw [List.cons_append, Gap.skip_blank_cons (by simp [slash]), blank]
    rfl
  rw [hw, Tokens.step_of_skip gap, reads rest ends]
  rfl

/-- **Quotations.** A quoted literal is read exactly if a body and the closing quote are there. It
ends at that quote, the first one that no backslash escapes, and it means what its body means. Every
name that is written, plain or between quotes, is read back as one symbol that is that name. -/
theorem Quoted.read_exact :
    (∀ (quote : Quote) (opened l : Location) (cs ds : List Char) (k : Cursor),
      read quote opened l cs = .ok (ds, k) ↔
        ∃ body rest, cs = body ++ quote.mark :: rest ∧ Body quote body ds ∧
          k = ⟨l.after (body ++ [quote.mark]), rest⟩) ∧
    ∀ (name : String) (rest : List Char) (l : Location), Ends rest →
      Tokens.step l (Name.written name ++ rest) =
        .ok (.token ⟨Name.lexeme name, l⟩ ⟨l.after (Name.written name), rest⟩) :=
  ⟨fun _ _ _ _ _ _ => read_ok_iff, fun name _ l ends => Name.step_written name ends l⟩

/-- Escapes that no written name needs, a body that does not end, and a written name with a quote, a
newline and a carriage return, the last of which is not escaped. -/
theorem Quoted.read_exact_oddities :
    read .string ⟨none, 1, 1⟩ ⟨none, 1, 2⟩ ['\\', '"', '\\', '/', '\\', '0', '\'', '"', ')'] =
      .ok (['"', '/', '\x00', '\''], ⟨⟨none, 1, 10⟩, [')']⟩) ∧
    (∀ ds k, read .symbol ⟨none, 1, 1⟩ ⟨none, 1, 2⟩ ['a', '\n', '\''] ≠ .ok (ds, k)) ∧
    Tokens.step ⟨none, 1, 1⟩ ("'it\\'s\\n\r'".toList ++ [':', ':']) =
      .ok (.token ⟨.quoted "it's\n\r", ⟨none, 1, 1⟩⟩ ⟨⟨none, 1, 11⟩, [':', ':']⟩) := by
  obtain ⟨exact, names⟩ := read_exact
  refine ⟨?_, fun ds k reads => ?_, ?_⟩
  · rw [exact]
    refine ⟨['\\', '"', '\\', '/', '\\', '0', '\''], [')'], rfl, ?_, rfl⟩
    exact .escaped (by decide) (.escaped (by decide) (.escaped (by decide)
      (.plain (by decide) (by decide) (by decide) .nil)))
  · obtain ⟨body, rest, split, means, -⟩ := (exact _ _ _ _ _ _).1 reads
    cases means with
    | nil => simp [Quote.mark] at split
    | escaped => simp at split
    | plain _ _ _ means =>
      cases means with
      | nil => simp [Quote.mark] at split
      | escaped => simp at split
      | plain _ _ newline _ =>
        simp only [List.cons_append, List.cons.injEq] at split
        exact newline split.2.1.symm
  · exact names "it's\n\r" [':', ':'] ⟨none, 1, 1⟩ (ends_cons.2 (by decide))

/-! ## Integers -/

namespace Integer

variable {negative : Bool} {run : List Char} {next : Option Char} {n : Int}

def sign (negative : Bool) : List Char := if negative then ['-'] else []

/-- The number that the digits of the run denote, its underscores left out. -/
def decimal (run : List Char) : Nat :=
  Nat.ofDigits 10 ((run.filter Char.isDigit).map fun c => c.toNat - '0'.toNat).reverse

/-- The run may be read as the number `n`, where `next` stands behind it. Underscores stand between
digits, one at a time. -/
structure Denotes (negative : Bool) (run : List Char) (next : Option Char) (n : Int) : Prop where
  last : run.getLast? ≠ some '_'
  single : ¬['_', '_'] <:+: run
  clear : ∀ c ∈ next, ¬(c.isAlpha ∨ c = '$' ∨ c = '.')
  value : n = if negative then -(decimal run : Int) else decimal run
  range : -2 ^ 63 ≤ n ∧ n ≤ 2 ^ 63 - 1

theorem doubled_iff (cs : List Char) : doubled cs ↔ ['_', '_'] <:+: cs := by
  fun_induction doubled cs with
  | case1 cs => exact iff_of_true rfl ⟨[], cs, rfl⟩
  | case2 c cs single ih =>
    rw [ih, List.infix_cons_iff, or_iff_right]
    rintro ⟨rest, split⟩
    obtain ⟨rfl, rfl⟩ := List.cons.inj split
    exact single rest rfl rfl
  | case3 => simp

theorem ofDigitChars_eq (cs : List Char) : Nat.ofDigitChars 10 cs 0 =
    Nat.ofDigits 10 (cs.map fun c => c.toNat - '0'.toNat).reverse := by
  induction cs using List.reverseRecOn with
  | nil => rfl
  | append_singleton cs c ih =>
    rw [Nat.ofDigitChars_append, ih]
    simp [Nat.ofDigitChars, Nat.ofDigits_cons, Nat.add_comm]

/-- A run has no other characters than digits and underscores. -/
def IsRun (run : List Char) : Prop := ∀ c ∈ run, c.isDigit ∨ c = '_'

theorem magnitude_eq (h : IsRun run) : magnitude run = decimal run := by
  rw [magnitude, ofDigitChars_eq, decimal]
  congr 3
  refine List.filter_congr fun c hc => ?_
  rcases h c hc with digit | rfl
  · have apart : c ≠ '_' := by
      rintro rfl
      revert digit
      decide
    rw [digit, decide_eq_true apart]
  · rfl

theorem value_eq (h : IsRun run) : value negative run =
    if negative then -(decimal run : Int) else decimal run := by
  rw [value, magnitude_eq h]

theorem fits_iff : fits n ↔ -2 ^ 63 ≤ n ∧ n ≤ 2 ^ 63 - 1 := by
  simp [fits]

theorem clashes_iff : next.any clashes ↔ ∃ c ∈ next, c.isAlpha ∨ c = '$' ∨ c = '.' := by
  simp [clashes, Option.any_eq_true, or_assoc]

theorem misplaced_iff : misplaced run ↔ run.getLast? = some '_' ∨ ['_', '_'] <:+: run := by
  simp [misplaced, ← doubled_iff]

theorem read_ok_iff (h : IsRun run) : read negative run next = .ok n ↔
    Denotes negative run next n := by
  have parts : Denotes negative run next n ↔ ¬next.any clashes ∧ ¬misplaced run ∧
      fits (value negative run) ∧ value negative run = n := by
    rw [clashes_iff, misplaced_iff, fits_iff, value_eq h]
    constructor
    · rintro ⟨last, single, clear, rfl, range⟩
      exact ⟨fun ⟨c, hc, clash⟩ => clear c hc clash, not_or.2 ⟨last, single⟩, range, rfl⟩
    · rintro ⟨clear, placed, range, rfl⟩
      obtain ⟨last, single⟩ := not_or.1 placed
      exact ⟨last, single, fun c hc clash => clear ⟨c, hc, clash⟩, rfl, range⟩
  rw [parts, read]
  split
  · simp_all
  split
  · simp_all
  split <;> simp_all

/-- The literal as it is written in complaints. -/
def literal (negative : Bool) (run : List Char) : String := .ofList (sign negative ++ run)

/-- What may be wrong with an integer. -/
def faults (negative : Bool) (run : List Char) : List TextFault :=
  [.malformedNumber (literal negative run), .misplacedUnderscore (literal negative run),
    .integerOutOfRange (literal negative run)]

theorem mem_faults_of_read {fault : TextFault} (h : read negative run next = .error fault) :
    fault ∈ faults negative run := by
  have digits : (if negative then "-" else "") ++ String.ofList run = literal negative run := by
    cases negative <;> simp [literal, sign]
  rw [read, digits] at h
  grind [faults]

theorem continues_iff {c : Char} : continues c ↔ c.isDigit ∨ c = '_' := by
  simp [continues]

/-- A sign and a digit start an integer, which goes on as far as its run does. -/
theorem step_run {l here : Location} {cs rest : List Char} {d : Char}
    (position : Gap.blank.skip l cs = .ok ⟨here, sign negative ++ d :: run ++ rest⟩)
    (digit : d.isDigit) (isRun : IsRun run)
    (maximal : ∀ c ∈ rest.head?, ¬(c.isDigit ∨ c = '_')) :
    Tokens.step l cs = match read negative (d :: run) rest.head? with
      | .ok n => .ok (.token ⟨.integer n, here⟩ ⟨here.after (sign negative ++ d :: run), rest⟩)
      | .error fault => .error ⟨fault, here⟩ := by
  have all : ∀ c ∈ d :: run, continues c :=
    List.forall_mem_cons.2 ⟨continues_iff.2 (.inl digit), fun c hc => continues_iff.2 (isRun c hc)⟩
  have stops : ∀ c ∈ rest.head?, continues c = false := fun c hc =>
    Bool.eq_false_iff.2 fun goes => maximal c hc (continues_iff.1 goes)
  obtain ⟨htake, hdrop⟩ := takeWhile_dropWhile_append all stops
  rw [List.cons_append] at htake hdrop
  cases negative with
  | false =>
    rw [sign, if_neg (by simp), List.nil_append, List.cons_append] at position
    rw [Tokens.step_of_skip position, Lexeme.read_digit digit, Lexeme.readInteger, htake, hdrop]
    cases read false (d :: run) rest.head? <;> rfl
  | true =>
    rw [sign, if_pos rfl, List.singleton_append, List.cons_append, List.cons_append] at position
    have minus : Lexeme.read here '-' (d :: (run ++ rest)) =
        Lexeme.readInteger here true (here.next '-') (d :: (run ++ rest)) := by
      simp [Lexeme.read, digit]
    rw [Tokens.step_of_skip position, minus, Lexeme.readInteger, htake, hdrop]
    cases read true (d :: run) rest.head? <;> rfl

/-- **Integers.** Where the next token starts with a digit, or with a minus and a digit, it is the
integer that the whole run denotes. If the run denotes none, because an underscore is misplaced,
because something clashes with it, or because the number does not fit, it is refused at its first
character. -/
theorem step_exact {l here : Location} {cs rest : List Char} {d : Char}
    (position : Gap.blank.skip l cs = .ok ⟨here, sign negative ++ d :: run ++ rest⟩)
    (digit : d.isDigit) (isRun : ∀ c ∈ run, c.isDigit ∨ c = '_')
    (maximal : ∀ c ∈ rest.head?, ¬(c.isDigit ∨ c = '_')) :
    (∀ n, Denotes negative (d :: run) rest.head? n → Tokens.step l cs =
      .ok (.token ⟨.integer n, here⟩ ⟨here.after (sign negative ++ d :: run), rest⟩)) ∧
    ((∀ n, ¬Denotes negative (d :: run) rest.head? n) →
      ∃ fault ∈ faults negative (d :: run), Tokens.step l cs = .error ⟨fault, here⟩) := by
  have whole : IsRun (d :: run) := List.forall_mem_cons.2 ⟨.inl digit, isRun⟩
  rw [step_run position digit isRun maximal]
  constructor
  · intro n denotes
    rw [(read_ok_iff whole).2 denotes]
  · intro none
    cases outcome : read negative (d :: run) rest.head? with
    | ok n => exact absurd ((read_ok_iff whole).1 outcome) (none n)
    | error fault => exact ⟨fault, mem_faults_of_read outcome, rfl⟩

/-- The least number that fits, behind a comment; the next one does not fit any more. -/
theorem step_exact_least :
    Tokens.step (.start none) "/**/-9_223372036854775808)".toList = .ok (.token
      ⟨.integer (-9223372036854775808), ⟨none, 1, 5⟩⟩ ⟨⟨none, 1, 26⟩, [')']⟩) ∧
    ∃ fault, Tokens.step (.start none) "/**/-9_223372036854775809)".toList =
      .error ⟨fault, ⟨none, 1, 5⟩⟩ := by
  have digits (run : List Char) (all : run.all continues) : ∀ c ∈ run, c.isDigit ∨ c = '_' :=
    fun c hc => continues_iff.1 (List.all_eq_true.1 all c hc)
  have closes : ∀ c ∈ [')'].head?, ¬(c.isDigit ∨ c = '_') := by
    simp
  have leastHere : Gap.blank.skip (.start none) "/**/-9_223372036854775808)".toList =
      .ok ⟨⟨none, 1, 5⟩, sign true ++ '9' :: "_223372036854775808".toList ++ [')']⟩ := rfl
  have belowHere : Gap.blank.skip (.start none) "/**/-9_223372036854775809)".toList =
      .ok ⟨⟨none, 1, 5⟩, sign true ++ '9' :: "_223372036854775809".toList ++ [')']⟩ := rfl
  have least := step_exact leastHere (by decide) (digits _ (by decide)) closes
  have below := step_exact belowHere (by decide) (digits _ (by decide)) closes
  constructor
  · exact least.1 _ ⟨by decide, (doubled_iff _).not.1 (by decide), by simp, by decide, by decide⟩
  · obtain ⟨fault, -, fails⟩ := below.2 fun n denotes => by
      have value : n = -9223372036854775809 := denotes.value.trans (by decide)
      have range := denotes.range.1
      omega
    exact ⟨fault, fails⟩

end Integer

end TypeDomains
