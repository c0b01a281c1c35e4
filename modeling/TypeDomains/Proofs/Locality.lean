import Mathlib.Data.List.TakeWhile
import TypeDomains.Proofs.Scanning

/-!
# Locality of scanning

A token depends on what stands behind it by one character at most. So the front of a text has the
same tokens, at the same places, whatever it goes on with (`Tokens.scan_front`).
-/

namespace TypeDomains

/-- Behind a token, `ds` does what `cs` does: it starts in the same way, or with a separator. -/
def Follows (cs ds : List Char) : Prop := ds.head? = cs.head? ∨ Ends ds

theorem Follows.of_append {cs ds : List Char} (u : List Char) (h : Follows cs ds) :
    Follows (u ++ cs) (u ++ ds) := by
  cases u with
  | nil => exact h
  | cons c u => exact .inl rfl

/-- Where a character class of names and operators ends at `cs`, it ends at `ds`. -/
theorem Follows.stops {cs ds : List Char} (h : Follows cs ds) {p : Char → Bool}
    (hp : ∀ c, p c → Name.continues c ∨ Lexeme.isOperator c)
    (hcs : ∀ c ∈ cs.head?, p c = false) : ∀ c ∈ ds.head?, p c = false := by
  rcases h with same | ends
  · rwa [same]
  · exact ends.stops hp

/-! ## One token -/

theorem Quoted.read_front {quote : Quote} {opened l : Location} {cs ds : List Char} {k : Cursor}
    (h : read quote opened l cs = .ok (ds, k)) :
    ∃ u, cs = u ++ k.rest ∧ ∀ z, read quote opened l (u ++ z) = .ok (ds, ⟨k.location, z⟩) := by
  obtain ⟨body, rest, rfl, means, rfl⟩ := read_ok_iff.1 h
  refine ⟨body ++ [quote.mark], by simp, fun z => ?_⟩
  rw [List.append_assoc, List.singleton_append, read_body means]

/-- All that matters behind a number is that nothing there clashes with it. -/
theorem Integer.read_next {negative : Bool} {run : List Char} {next : Option Char} {n : Int}
    (h : read negative run next = .ok n) : (∀ c ∈ next, clashes c = false) ∧
      ∀ next' : Option Char, (∀ c ∈ next', clashes c = false) →
        read negative run next' = .ok n := by
  have free (o : Option Char) : o.any clashes = false ↔ ∀ c ∈ o, clashes c = false := by
    cases o <;> simp
  simp only [read] at h ⊢
  split at h
  · simp at h
  · rename_i clear
    refine ⟨(free next).1 (by simpa using clear), ?_⟩
    intro next' clear'
    rw [(free next').2 clear']
    simpa using h

namespace Lexeme

variable {l opened : Location} {c : Char} {cs : List Char} {x : Lexeme} {k : Cursor}

/-- The token is read in the same way in front of everything that does what is there. -/
def Local (read : List Char → Except TextError (Lexeme × Cursor)) (cs : List Char) (x : Lexeme)
    (k : Cursor) : Prop :=
  ∃ u, cs = u ++ k.rest ∧ ∀ z, Follows k.rest z → read (u ++ z) = .ok (x, ⟨k.location, z⟩)

theorem readRun_front {make : String → Lexeme} {p : Char → Bool}
    (hp : ∀ c, p c → Name.continues c ∨ isOperator c) (h : readRun make p l c cs = (x, k)) :
    Local (fun cs => .ok (readRun make p l c cs)) cs x k := by
  obtain ⟨rfl, rfl⟩ := Prod.mk.inj h
  refine ⟨cs.takeWhile p, List.takeWhile_append_dropWhile.symm, fun z hz => ?_⟩
  have run : ∀ c ∈ cs.takeWhile p, p c := fun c hc => List.mem_takeWhile_imp hc
  obtain ⟨htake, hdrop⟩ := takeWhile_dropWhile_append run (hz.stops hp (head?_dropWhile cs))
  simp only [readRun, htake, hdrop]

theorem readQuoted_front {quote : Quote} (h : readQuoted quote opened cs = .ok (x, k)) :
    Local (readQuoted quote opened) cs x k := by
  unfold readQuoted at h
  split at h
  · rename_i hr
    obtain ⟨rfl, rfl⟩ := Prod.mk.inj (Except.ok.inj h)
    obtain ⟨u, hu, front⟩ := Quoted.read_front hr
    exact ⟨u, hu, fun z _ => by rw [readQuoted, front z]⟩
  · simp at h

/-- A number that starts with a digit takes that digit. -/
theorem readInteger_front {negative : Bool} {d : Char} (hd : d.isDigit)
    (h : readInteger opened negative l (d :: cs) = .ok (x, k)) :
    Local (fun cs => readInteger opened negative l (d :: cs)) cs x k := by
  have digit : Integer.continues d := by simp [Integer.continues, hd]
  have rest := readInteger_rest h
  rw [List.dropWhile_cons_of_pos digit] at rest
  refine ⟨cs.takeWhile Integer.continues, by rw [rest, List.takeWhile_append_dropWhile], ?_⟩
  intro z hz
  rw [rest] at hz
  have run : ∀ c ∈ d :: cs.takeWhile Integer.continues, Integer.continues c :=
    List.forall_mem_cons.2 ⟨digit, fun c hc => List.mem_takeWhile_imp hc⟩
  obtain ⟨htake, hdrop⟩ := takeWhile_dropWhile_append run
    (hz.stops (fun _ => Integer.apart_of_continues) (head?_dropWhile cs))
  rw [List.cons_append] at htake hdrop
  simp only [readInteger, List.takeWhile_cons_of_pos digit, List.dropWhile_cons_of_pos digit] at h
  split at h
  · rename_i n hn
    obtain ⟨rfl, rfl⟩ := Prod.mk.inj (Except.ok.inj h)
    obtain ⟨clear, go⟩ := Integer.read_next hn
    have same := go z.head? (hz.stops (fun _ => Integer.apart_of_clashes) clear)
    simp only [readInteger, htake, hdrop, same]
  · simp at h

theorem read_operator (hc : isOperator c) (l : Location) {cs : List Char}
    (hminus : ¬(c = '-' ∧ cs.head?.any Char.isDigit)) :
    read l c cs = .ok (readRun operator isOperator l c cs) := by
  have all : "!#%&*+-./;<=>?@^`|~".toList.all fun d =>
      !d.isDigit && !Name.starts d && !("():\"'".toList.contains d) := by
    decide
  have apart := List.all_eq_true.1 all c (by simpa [isOperator] using hc)
  simp only [String.reduceToList, Bool.and_eq_true, Bool.not_eq_true', List.contains_eq_mem,
    List.mem_cons, List.not_mem_nil, or_false, decide_eq_false_iff_not, not_or] at apart
  obtain ⟨⟨digit, start⟩, others⟩ := apart
  simp only [read, others, digit, start, hminus, hc, false_and, Bool.false_eq_true, ↓reduceIte]

theorem read_front (h : read l c cs = .ok (x, k)) : Local (read l c) cs x k := by
  have one {y : Lexeme} (hy : ∀ z, read l c z = .ok (y, ⟨l.next c, z⟩)) :
      Local (read l c) cs x k := by
    obtain ⟨rfl, rfl⟩ := Prod.mk.inj (Except.ok.inj ((hy cs).symm.trans h))
    exact ⟨[], rfl, fun z _ => hy z⟩
  have quotation (quote : Quote) (hc : ∀ z, read l c z = readQuoted quote l z) :
      Local (read l c) cs x k := by
    rw [funext hc] at h ⊢
    exact readQuoted_front h
  by_cases hopen : c = '('
  · exact one (y := .opening) fun z => by simp [read, hopen]
  by_cases hclose : c = ')'
  · exact one (y := .closing) fun z => by simp [read, hclose]
  by_cases hcolons : c = ':' ∧ cs.head? = some ':'
  · obtain ⟨rfl, hhead⟩ := hcolons
    obtain ⟨rest, rfl⟩ := List.head?_eq_some_iff.1 hhead
    have colons (z : List Char) :
        read l ':' (':' :: z) = .ok (.colons, ⟨l.after [':', ':'], z⟩) := by simp [read]
    obtain ⟨rfl, rfl⟩ := Prod.mk.inj (Except.ok.inj ((colons rest).symm.trans h))
    exact ⟨[':'], rfl, fun z _ => colons z⟩
  by_cases hstring : c = '"'
  · exact quotation .string fun z => by simp [read, hstring]
  by_cases hquoted : c = '\''
  · exact quotation .symbol fun z => by simp [read, hquoted]
  by_cases hdigit : c.isDigit
  · rw [read_digit hdigit] at h
    obtain ⟨u, hu, front⟩ := readInteger_front hdigit h
    exact ⟨u, hu, fun z hz => (read_digit hdigit l _).trans (front z hz)⟩
  by_cases hminus : c = '-' ∧ cs.head?.any Char.isDigit
  · obtain ⟨rfl, hhead⟩ := hminus
    obtain ⟨d, hcs, hd⟩ := (Option.any_eq_true _ _).1 hhead
    obtain ⟨rest, rfl⟩ := List.head?_eq_some_iff.1 hcs
    have negative (z : List Char) :
        read l '-' (d :: z) = readInteger l true (l.next '-') (d :: z) := by
      simp [read, hd]
    rw [negative] at h
    obtain ⟨u, rfl, front⟩ := readInteger_front hd h
    exact ⟨d :: u, rfl, fun z hz => (negative _).trans (front z hz)⟩
  by_cases hstart : Name.starts c
  · rw [read_start hstart] at h
    obtain ⟨u, hu, front⟩ := readRun_front (fun _ => .inl) (Except.ok.inj h)
    exact ⟨u, hu, fun z hz => (read_start hstart l _).trans (front z hz)⟩
  by_cases hoperator : isOperator c
  · rw [read_operator hoperator l hminus] at h
    obtain ⟨u, rfl, front⟩ := readRun_front (fun _ => .inr) (Except.ok.inj h)
    refine ⟨u, rfl, fun z hz => ?_⟩
    have minus : ¬(c = '-' ∧ (u ++ z).head?.any Char.isDigit) := by
      rintro ⟨hc, digit⟩
      have plain : ∀ d ∈ (u ++ k.rest).head?, d.isDigit = false := by
        intro d hd
        by_contra hdigit
        exact hminus ⟨hc, (Option.any_eq_true _ _).2 ⟨d, hd, by simpa using hdigit⟩⟩
      have stops := (hz.of_append u).stops (fun d hd => .inl (Name.continues_of_isDigit hd)) plain
      obtain ⟨d, hd, hdigit⟩ := (Option.any_eq_true _ _).1 digit
      simp [stops d hd] at hdigit
    exact (read_operator hoperator l minus).trans (front z hz)
  · simp [read, *] at h

end Lexeme

/-! ## A gap and the token behind it -/

namespace Gap

theorem skip_block_cons {opened l : Location} {c : Char} {cs : List Char}
    (h : ¬(c = '*' ∧ cs.head? = some '/')) :
    skip (block opened) l (c :: cs) = skip (block opened) (l.next c) cs := by
  rw [skip]
  intro rest hc hcs
  exact h ⟨hc, by rw [hcs, List.head?_cons]⟩

theorem skip_blank_cons {l : Location} {c : Char} {cs : List Char}
    (h : ¬(c = '/' ∧ (cs.head? = some '/' ∨ cs.head? = some '*'))) :
    skip blank l (c :: cs) = if isBlank c then skip blank (l.next c) cs else .ok ⟨l, c :: cs⟩ := by
  rw [skip]
  · intro rest hc hcs
    exact h ⟨hc, .inl (by rw [hcs, List.head?_cons])⟩
  · intro rest hc hcs
    exact h ⟨hc, .inr (by rw [hcs, List.head?_cons])⟩

/-- A gap ends where it does as long as the token behind it starts as it did. -/
theorem skip_front {g : Gap} {l m : Location} {cs rest : List Char} {c : Char}
    (h : g.skip l cs = .ok ⟨m, c :: rest⟩) :
    ∃ u, cs = u ++ c :: rest ∧
      ∀ z, Follows rest z → g.skip l (u ++ c :: z) = .ok ⟨m, c :: z⟩ := by
  have head (u z : List Char) : (u ++ c :: z).head? = (u ++ c :: rest).head? := by
    cases u <;> rfl
  fun_induction skip g l cs with
  | case1 => simp at h
  | case2 => simp at h
  | case3 opened l cs ih =>
    obtain ⟨u, rfl, front⟩ := ih h
    exact ⟨'*' :: '/' :: u, rfl, fun z hz => by
      rw [List.cons_append, List.cons_append, skip, front z hz]⟩
  | case4 opened l d cs goes ih =>
    obtain ⟨u, rfl, front⟩ := ih h
    refine ⟨d :: u, rfl, fun z hz => ?_⟩
    rw [List.cons_append, skip_block_cons, front z hz]
    rintro ⟨star, slash⟩
    rw [head] at slash
    obtain ⟨_, hslash⟩ := List.head?_eq_some_iff.1 slash
    exact goes _ star hslash
  | case5 l d cs ih =>
    obtain ⟨u, rfl, front⟩ := ih h
    exact ⟨d :: u, rfl, fun z hz => by rw [List.cons_append, skip, front z hz]⟩
  | case6 l cs ih =>
    obtain ⟨u, rfl, front⟩ := ih h
    exact ⟨'/' :: '/' :: u, rfl, fun z hz => by
      rw [List.cons_append, List.cons_append, skip, front z hz]⟩
  | case7 l cs ih =>
    obtain ⟨u, rfl, front⟩ := ih h
    exact ⟨'/' :: '*' :: u, rfl, fun z hz => by
      rw [List.cons_append, List.cons_append, skip, front z hz]⟩
  | case8 l d cs _ _ hblank ih =>
    obtain ⟨u, rfl, front⟩ := ih h
    refine ⟨d :: u, rfl, fun z hz => ?_⟩
    have plain : d ≠ '/' := by
      rintro rfl
      revert hblank
      decide
    rw [List.cons_append, skip_blank_cons (by simp [plain]), if_pos hblank, front z hz]
  | case9 l d cs noLine noBlock hblank =>
    obtain ⟨rfl, rfl, rfl⟩ := by simpa using h
    refine ⟨[], rfl, fun z hz => ?_⟩
    have opens : ¬(d = '/' ∧ (z.head? = some '/' ∨ z.head? = some '*')) := by
      rintro ⟨slash, next⟩
      have none : ∀ e ∈ cs.head?, (e = '/' || e = '*') = false := by
        intro e he
        obtain ⟨rest, rfl⟩ := List.head?_eq_some_iff.1 he
        simp only [Bool.or_eq_false_iff, decide_eq_false_iff_not]
        exact ⟨fun h => noLine rest slash (h ▸ rfl), fun h => noBlock rest slash (h ▸ rfl)⟩
      have operators (e : Char) (he : (e = '/' || e = '*')) :
          Name.continues e ∨ Lexeme.isOperator e := by
        simp only [Bool.or_eq_true, decide_eq_true_eq] at he
        rcases he with rfl | rfl <;> exact .inr (by decide)
      have stops := hz.stops operators none
      rcases next with next | next <;> simpa using stops _ next
    rw [List.nil_append, skip_blank_cons opens, if_neg hblank]

end Gap

namespace Tokens

theorem step_front {l : Location} {cs : List Char} {t : Token} {k : Cursor}
    (h : step l cs = .ok (.token t k)) :
    ∃ u, cs = u ++ k.rest ∧
      ∀ z, Follows k.rest z → step l (u ++ z) = .ok (.token t ⟨k.location, z⟩) := by
  unfold step at h
  split at h
  · simp at h
  · simp at h
  · rename_i m c rest hgap
    obtain ⟨gap, rfl, skips⟩ := Gap.skip_front hgap
    split at h
    · simp at h
    · rename_i x k' hx
      obtain ⟨rfl, rfl⟩ := Step.token.inj (Except.ok.inj h)
      obtain ⟨u, rfl, reads⟩ := Lexeme.read_front hx
      refine ⟨gap ++ c :: u, by simp, fun z hz => ?_⟩
      have skipped := skips (u ++ z) (hz.of_append u)
      rw [List.append_assoc, List.cons_append, step, skipped]
      simp only [reads z hz]

/-- **Locality.** The front of a text that has these tokens has them, where they are, whatever it
goes on with behind a separator. -/
theorem scan_front {l stop : Location} {cs : List Char} {before after : List Token}
    (h : scan l cs = .ok ⟨before ++ after, stop⟩) :
    ∃ w, w <+: cs ∧ ∀ v xs, Ends v → Scans v xs →
      ∃ ts, scan l (w ++ v) = .ok ts ∧
        ∃ us, ts.tokens = before ++ us ∧ us.map Token.lexeme = xs := by
  induction before generalizing l cs with
  | nil =>
    refine ⟨[], List.nil_prefix, fun v xs _ hv => ?_⟩
    obtain ⟨ts, hts, lexemes⟩ := hv l
    exact ⟨ts, hts, ts.tokens, rfl, lexemes⟩
  | cons t before ih =>
    rw [scan_eq] at h
    split at h
    · simp at h
    · simp at h
    · rename_i t' k hstep
      obtain ⟨rest, hrest, heq⟩ := map_ok.1 h
      obtain ⟨tokens, stop'⟩ := rest
      obtain ⟨⟨rfl, rfl⟩, rfl⟩ := by simpa [push] using heq
      obtain ⟨w, hw, front⟩ := ih hrest
      obtain ⟨u, rfl, steps⟩ := step_front hstep
      refine ⟨u ++ w, (List.prefix_append_right_inj u).2 hw, fun v xs ends hv => ?_⟩
      have follows : Follows k.rest (w ++ v) := by
        cases w with
        | nil => exact .inr ends
        | cons c w =>
          obtain ⟨rest, hrest⟩ := hw
          exact .inl (by rw [← hrest]; rfl)
      obtain ⟨ts, hts, us, hus, lexemes⟩ := front v xs ends hv
      refine ⟨push t' ts, ?_, us, by simp [push, hus], lexemes⟩
      rw [List.append_assoc, scan_eq, steps _ follows]
      simp only [hts, Except.map]

end Tokens

end TypeDomains
