import Mathlib.Data.List.DropRight
import Mathlib.Data.List.Induction
import TypeDomains.Proofs.Outcome
import TypeDomains.Token

/-!
# Positions

Scanning goes over a text from place to place. Whatever it has taken, its location is the one
behind the characters taken (`Cursor.Leads`), and what it complains about stands at such a place
too, but for an escaped newline (`Cursor.Blames`).
-/

namespace TypeDomains

namespace Location

@[simp]
theorem file_next (l : Location) (c : Char) : (l.next c).file = l.file := by
  unfold next
  split <;> rfl

@[simp]
theorem file_after (l : Location) (cs : List Char) : (l.after cs).file = l.file := by
  unfold after
  induction cs generalizing l with
  | nil => rfl
  | cons c cs ih => rw [List.foldl_cons, ih, file_next]

theorem after_append (l : Location) (u v : List Char) : l.after (u ++ v) = (l.after u).after v :=
  List.foldl_append

/-- Lines count newlines, and columns the characters behind the last of them. -/
theorem after_start (file : Option String) (w : List Char) : (start file).after w =
    ⟨file, 1 + w.count '\n', 1 + (w.rtakeWhile (· ≠ '\n')).length⟩ := by
  induction w using List.reverseRecOn with
  | nil => rfl
  | append_singleton w c ih =>
    rw [after_append, ih]
    by_cases newline : c = '\n'
    · subst newline
      rw [List.rtakeWhile_concat_neg _ _ _ (by simp)]
      simp [after, next, Nat.add_assoc]
    · rw [List.rtakeWhile_concat_pos _ _ _ (by simpa using newline)]
      simp [after, next, newline, Nat.add_assoc]

end Location

namespace Cursor

/-- From the one place the text leads to the other. -/
def Leads (k k' : Cursor) : Prop :=
  ∃ u, k.rest = u ++ k'.rest ∧ k'.location = k.location.after u

/-- The location of a character behind the place, or of the end. -/
def Covers (k : Cursor) (l : Location) : Prop := ∃ rest, k.Leads ⟨l, rest⟩

/-- A complaint stands where the text leads to. Only an escaped newline is blamed on a column that
no line has. -/
inductive Blames (k : Cursor) : TextError → Prop where
  | here {fault l} : fault ≠ .unknownEscape '\n' → k.Covers l → Blames k ⟨fault, l⟩
  | newline {l rest} : k.Leads ⟨l, '\\' :: '\n' :: rest⟩ →
    Blames k ⟨.unknownEscape '\n', ⟨l.file, l.line + 1, 0⟩⟩

variable {k k' k'' : Cursor} {l : Location} {e : TextError}

theorem Leads.refl (k : Cursor) : k.Leads k := ⟨[], rfl, rfl⟩

theorem Leads.trans (h : k.Leads k') (h' : k'.Leads k'') : k.Leads k'' := by
  obtain ⟨u, rest, location⟩ := h
  obtain ⟨v, rest', location'⟩ := h'
  refine ⟨u ++ v, ?_, ?_⟩
  · rw [rest, rest', List.append_assoc]
  · rw [location', location, Location.after_append]

theorem leads_after (l : Location) (u cs : List Char) : Leads ⟨l, u ++ cs⟩ ⟨l.after u, cs⟩ :=
  ⟨u, rfl, rfl⟩

theorem leads_next (l : Location) (c : Char) (cs : List Char) : Leads ⟨l, c :: cs⟩ ⟨l.next c, cs⟩ :=
  leads_after l [c] cs

theorem Leads.covers (h : k.Leads k') : k.Covers k'.location := ⟨k'.rest, h⟩

theorem Covers.of_leads (h : k.Leads k') (hl : k'.Covers l) : k.Covers l := by
  obtain ⟨rest, hl⟩ := hl
  exact ⟨rest, h.trans hl⟩

theorem Covers.file_eq (h : k.Covers l) : l.file = k.location.file := by
  obtain ⟨rest, u, -, rfl⟩ := h
  exact k.location.file_after u

theorem Blames.of_leads (h : k.Leads k') (he : k'.Blames e) : k.Blames e := by
  cases he with
  | here fault covered => exact .here fault (.of_leads h covered)
  | newline escape => exact .newline (h.trans escape)

/-- What is taken from the place on ends where the text leads to, or with a complaint. -/
def Stays {α : Type} (k : Cursor) (stop : α → Cursor) : Except TextError α → Prop
  | .ok a => k.Leads (stop a)
  | .error e => k.Blames e

theorem Stays.map {α β : Type} {stop : α → Cursor} {stop' : β → Cursor} {f : α → β}
    {x : Except TextError α} (hf : ∀ a, stop' (f a) = stop a) (hx : k.Stays stop x) :
    k.Stays stop' (x.map f) := by
  cases x with
  | ok a =>
    change k.Leads (stop' (f a))
    rw [hf]
    exact hx
  | error e => exact hx

end Cursor

/-! ## Gaps and tokens -/

/-- Where a block comment is open, `k` is in front of it. -/
theorem Gap.stays_skip {k : Cursor} {g : Gap} {l : Location} {cs : List Char}
    (here : k.Leads ⟨l, cs⟩) (comment : ∀ opened, g = block opened → k.Covers opened) :
    k.Stays id (g.skip l cs) := by
  fun_induction skip g l cs with
  | case1 opened l => exact .here (by simp) (comment opened rfl)
  | case2 => exact here
  | case3 opened l cs ih => exact ih (here.trans (Cursor.leads_after l ['*', '/'] cs)) (by simp)
  | case4 opened l c cs _ ih => exact ih (here.trans (Cursor.leads_next l c cs)) comment
  | case5 l c cs ih =>
    refine ih (here.trans (Cursor.leads_next l c cs)) ?_
    split <;> simp
  | case6 l cs ih => exact ih (here.trans (Cursor.leads_after l ['/', '/'] cs)) (by simp)
  | case7 l cs ih =>
    refine ih (here.trans (Cursor.leads_after l ['/', '*'] cs)) fun opened same => ?_
    obtain rfl := Gap.block.inj same
    exact here.covers
  | case8 l c cs _ _ _ ih => exact ih (here.trans (Cursor.leads_next l c cs)) (by simp)
  | case9 => exact here

theorem Quoted.blame_eq {l : Location} {c : Char} (h : c ≠ '\n') : blame l c = l := by
  simp [blame, Location.after, Location.next, h]

theorem Quoted.stays_read {k : Cursor} {quote : Quote} {opened l : Location} {cs : List Char}
    (open_ : k.Covers opened) (here : k.Leads ⟨l, cs⟩) :
    k.Stays Prod.snd (read quote opened l cs) := by
  fun_induction read quote opened l cs with
  | case1 | case2 | case6 => exact .here (by simp) open_
  | case3 l c cs d _ ih =>
    exact (ih (here.trans (Cursor.leads_after l ['\\', c] cs))).map fun _ => rfl
  | case4 l c cs _ =>
    by_cases newline : c = '\n'
    · subst newline
      exact .newline here
    · rw [blame_eq newline]
      exact .here (by simpa using newline) here.covers
  | case5 l cs => exact here.trans (Cursor.leads_next l _ cs)
  | case7 l c cs _ _ _ _ ih => exact (ih (here.trans (Cursor.leads_next l c cs))).map fun _ => rfl

namespace Lexeme

theorem leads_readRun (make : String → Lexeme) (p : Char → Bool) (l : Location) (c : Char)
    (cs : List Char) :
    Cursor.Leads ⟨l, c :: cs⟩ (readRun make p l c cs).2 := by
  have run := Cursor.leads_after l (c :: cs.takeWhile p) (cs.dropWhile p)
  rwa [List.cons_append, List.takeWhile_append_dropWhile] at run

theorem stays_readQuoted (quote : Quote) (l : Location) (cs : List Char) :
    Cursor.Stays ⟨l, quote.mark :: cs⟩ Prod.snd (readQuoted quote l cs) := by
  have text : Cursor.Stays ⟨l, quote.mark :: cs⟩ Prod.snd (Quoted.read quote l (l.next _) cs) :=
    Quoted.stays_read (Cursor.Leads.refl _).covers (Cursor.leads_next l quote.mark cs)
  unfold readQuoted
  cases hx : Quoted.read quote l (l.next quote.mark) cs with
  | ok p => rwa [hx] at text
  | error e => rwa [hx] at text

theorem stays_readInteger {k : Cursor} {opened l : Location} {cs : List Char} (negative : Bool)
    (start : k.Covers opened) (here : k.Leads ⟨l, cs⟩) :
    k.Stays Prod.snd (readInteger opened negative l cs) := by
  have run := Cursor.leads_after l (cs.takeWhile Integer.continues) (cs.dropWhile Integer.continues)
  rw [List.takeWhile_append_dropWhile] at run
  simp only [readInteger]
  cases hn : Integer.read negative (cs.takeWhile Integer.continues)
      (cs.dropWhile Integer.continues).head? with
  | ok n => exact here.trans run
  | error fault =>
    refine .here ?_ start
    rintro rfl
    simp only [Integer.read] at hn
    grind

theorem stays_read (l : Location) (c : Char) (cs : List Char) :
    Cursor.Stays ⟨l, c :: cs⟩ Prod.snd (read l c cs) := by
  have next := Cursor.leads_next l c cs
  have here := (Cursor.Leads.refl ⟨l, c :: cs⟩).covers
  unfold read
  split
  · exact next
  split
  · exact next
  split
  · rename_i colons
    obtain ⟨rfl, head⟩ := colons
    obtain ⟨rest, rfl⟩ := List.head?_eq_some_iff.1 head
    exact Cursor.leads_after l [':', ':'] rest
  split
  · rename_i quote
    exact quote ▸ stays_readQuoted .string l cs
  split
  · rename_i quote
    exact quote ▸ stays_readQuoted .symbol l cs
  split
  · exact stays_readInteger false here (.refl _)
  split
  · exact stays_readInteger true here next
  split
  · exact leads_readRun _ _ l c cs
  split
  · exact leads_readRun _ _ l c cs
  · exact .here (by simp) here

end Lexeme

/-! ## Texts -/

namespace Tokens

variable {l m : Location} {cs : List Char}

theorem stays_gap (l : Location) (cs : List Char) :
    Cursor.Stays ⟨l, cs⟩ id (Gap.blank.skip l cs) :=
  Gap.stays_skip (.refl _) (by simp)

/-- What comes next stands where the text leads to. -/
theorem covers_of_step {x : Step} (h : step l cs = .ok x) :
    match x with
    | .stop m => Cursor.Covers ⟨l, cs⟩ m
    | .token t k => Cursor.Covers ⟨l, cs⟩ t.location ∧ Cursor.Leads ⟨l, cs⟩ k := by
  have gap := stays_gap l cs
  unfold step at h
  split at h
  · simp at h
  · rename_i hgap
    rw [hgap] at gap
    cases h
    exact gap.covers
  · rename_i here c rest hgap
    rw [hgap] at gap
    have token := Lexeme.stays_read here c rest
    split at h
    · simp at h
    · rename_i hx
      rw [hx] at token
      cases h
      exact ⟨gap.covers, gap.trans token⟩

theorem blames_of_step {e : TextError} (h : step l cs = .error e) : Cursor.Blames ⟨l, cs⟩ e := by
  have gap := stays_gap l cs
  unfold step at h
  split at h
  · rename_i hgap
    rw [hgap] at gap
    cases h
    exact gap
  · simp at h
  · rename_i here c rest hgap
    rw [hgap] at gap
    have token := Lexeme.stays_read here c rest
    split at h
    · rename_i hx
      rw [hx] at token
      cases h
      exact .of_leads gap token
    · simp at h

theorem covers_of_scan {ts : Tokens} (h : scan l cs = .ok ts) :
    (∀ t ∈ ts.tokens, Cursor.Covers ⟨l, cs⟩ t.location) ∧ Cursor.Covers ⟨l, cs⟩ ts.stop := by
  fun_induction scan l cs generalizing ts with
  | case1 => simp at h
  | case2 l cs here hstep =>
    cases h
    exact ⟨by simp, covers_of_step hstep⟩
  | case3 l cs t k hstep ih =>
    obtain ⟨here, behind⟩ := covers_of_step hstep
    obtain ⟨rest, hrest, rfl⟩ := map_ok.1 h
    obtain ⟨tokens, stop⟩ := ih hrest
    exact ⟨List.forall_mem_cons.2 ⟨here, fun u hu => .of_leads behind (tokens u hu)⟩,
      .of_leads behind stop⟩

theorem file_of_scan {ts : Tokens} (h : scan l cs = .ok ts) :
    ∀ t ∈ ts.tokens, t.location.file = l.file :=
  fun t ht => ((covers_of_scan h).1 t ht).file_eq

theorem blames_of_scan {e : TextError} (h : scan l cs = .error e) : Cursor.Blames ⟨l, cs⟩ e := by
  fun_induction scan l cs with
  | case1 l cs e' hstep =>
    cases h
    exact blames_of_step hstep
  | case2 => simp at h
  | case3 l cs t k hstep ih =>
    have behind := (covers_of_step hstep).2
    cases hrest : scan k.location k.rest with
    | ok ts => simp [hrest, Except.map] at h
    | error e' =>
      rw [hrest] at h
      cases h
      exact .of_leads behind (ih hrest)

end Tokens

end TypeDomains
