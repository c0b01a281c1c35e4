import TypeDomains.Lexical.Name
import TypeDomains.Lexical.Quoted
import TypeDomains.Proofs.Outcome

/-!
# Quotations

What may stand between two quotes, and what it means (`Quoted.Body`): a quoted literal is read
exactly if such a body and the closing quote are there (`Quoted.read_ok_iff`). Between quotes, each
name is written as such a body (`Name.body_flatMap_escaped`).
-/

namespace TypeDomains

namespace Quoted

/-- What may follow a backslash, with the character that the two stand for. -/
def escapes : List (Char × Char) :=
  [('n', '\n'), ('t', '\t'), ('r', '\r'), ('0', '\x00'), ('"', '"'), ('\'', '\''), ('\\', '\\'),
    ('/', '/')]

/-- The text may stand between the quotes, where it means the characters `ds`. -/
inductive Body (quote : Quote) : List Char → List Char → Prop where
  | nil : Body quote [] []
  | plain {c : Char} {body ds : List Char} : c ≠ quote.mark → c ≠ '\\' → c ≠ '\n' →
    Body quote body ds → Body quote (c :: body) (c :: ds)
  | escaped {c d : Char} {body ds : List Char} : (c, d) ∈ escapes → Body quote body ds →
    Body quote ('\\' :: c :: body) (d :: ds)

theorem escape_eq_some_iff {c d : Char} : escape c = some d ↔ (c, d) ∈ escapes := by
  unfold escape
  split <;> simp_all [escapes, eq_comm]

variable {quote : Quote} {opened l : Location} {cs body ds rest : List Char} {k : Cursor}

theorem read_body (h : Body quote body ds) (rest : List Char) :
    read quote opened l (body ++ quote.mark :: rest) =
      .ok (ds, ⟨l.after (body ++ [quote.mark]), rest⟩) := by
  induction h generalizing l with
  | nil => cases quote <;> simp [read, Quote.mark] <;> rfl
  | @plain c body ds mark backslash newline _ ih =>
    rw [List.cons_append, read]
    · rw [if_neg mark, if_neg newline, ih]
      rfl
    · exact fun same => absurd same backslash
    · exact fun _ _ same => absurd same backslash
  | @escaped c d body ds known _ ih =>
    rw [List.cons_append, List.cons_append, read, escape_eq_some_iff.2 known, ih]
    rfl

theorem body_of_read (h : read quote opened l cs = .ok (ds, k)) :
    ∃ body rest, cs = body ++ quote.mark :: rest ∧ Body quote body ds := by
  fun_induction read quote opened l cs generalizing ds with
  | case1 | case2 | case4 | case6 => simp at h
  | case3 l c cs d hd ih =>
    obtain ⟨⟨ds, k⟩, hr, heq⟩ := map_ok.1 h
    obtain ⟨rfl, rfl⟩ := Prod.mk.inj heq
    obtain ⟨body, rest, rfl, means⟩ := ih hr
    exact ⟨'\\' :: c :: body, rest, rfl, .escaped (escape_eq_some_iff.1 hd) means⟩
  | case5 l cs _ _ =>
    obtain ⟨rfl, -⟩ := Prod.mk.inj (Except.ok.inj h)
    exact ⟨[], cs, rfl, .nil⟩
  | case7 l c cs hlast hescape hmark hnewline ih =>
    obtain ⟨⟨ds, k⟩, hr, heq⟩ := map_ok.1 h
    obtain ⟨rfl, rfl⟩ := Prod.mk.inj heq
    obtain ⟨body, rest, rfl, means⟩ := ih hr
    have backslash : c ≠ '\\' := by
      rintro rfl
      cases hcs : body ++ quote.mark :: rest with
      | nil => exact hlast rfl hcs
      | cons d cs => exact hescape d cs rfl hcs
    exact ⟨c :: body, rest, rfl, .plain hmark backslash hnewline means⟩

/-- A literal is read exactly if its body and the closing quote are there, and up to that quote. -/
theorem read_ok_iff : read quote opened l cs = .ok (ds, k) ↔
    ∃ body rest, cs = body ++ quote.mark :: rest ∧ Body quote body ds ∧
      k = ⟨l.after (body ++ [quote.mark]), rest⟩ := by
  constructor
  · intro h
    obtain ⟨body, rest, rfl, means⟩ := body_of_read h
    rw [read_body means] at h
    obtain ⟨-, rfl⟩ := Prod.mk.inj (Except.ok.inj h)
    exact ⟨body, rest, rfl, means, rfl⟩
  · rintro ⟨body, rest, rfl, means, rfl⟩
    exact read_body means rest

end Quoted

/-! ## Written names -/

namespace Name

theorem body_escaped {body ds : List Char} (c : Char) (h : Quoted.Body .symbol body ds) :
    Quoted.Body .symbol (escaped c ++ body) (c :: ds) := by
  fun_cases escaped c with
  | case1 | case2 | case3 | case4 => exact .escaped (by decide) h
  | case5 c mark backslash newline _ => exact .plain mark backslash newline h

/-- Between quotes, every name is spelled by its characters, escaped where they have to be. -/
theorem body_flatMap_escaped (name : List Char) :
    Quoted.Body .symbol (name.flatMap escaped) name := by
  induction name with
  | nil => exact .nil
  | cons c name ih => exact body_escaped c ih

end Name

end TypeDomains
