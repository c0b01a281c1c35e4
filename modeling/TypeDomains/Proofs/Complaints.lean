import TypeDomains.Proofs.Positions
import TypeDomains.Proofs.Viability

/-!
# Complaints about a text

Where the complaint about a text that cannot be read stands: at a character of the text or at its
end, unless it is about an escaped newline (`SExpr.pointsInto_of_ofText`). That one is blamed on
column zero of the line behind it, where no text has a character.
-/

namespace TypeDomains

/-- The location of a character of the text or of its end. Lines and columns count from one, and
only a newline starts a line. -/
def Location.PointsInto (l : Location) (text : String) : Prop :=
  ∃ w, w <+: text.toList ∧ l.line = 1 + w.count '\n' ∧
    l.column = 1 + (w.rtakeWhile (· ≠ '\n')).length

/-- The place where the text starts. -/
def Cursor.ofText (file : Option String) (text : String) : Cursor := ⟨.start file, text.toList⟩

namespace Cursor

variable {file : Option String} {text : String} {l : Location}

theorem Covers.pointsInto (h : (ofText file text).Covers l) :
    l.file = file ∧ l.PointsInto text := by
  refine ⟨h.file_eq, ?_⟩
  obtain ⟨rest, w, split, location⟩ := h
  refine ⟨w, ⟨rest, split.symm⟩, ?_⟩
  change l = (Location.start file).after w at location
  rw [location, Location.after_start]
  exact ⟨rfl, rfl⟩

end Cursor

/-- The reader complains about a token, or about the end of the text. -/
theorem Blamed.covered {k : Cursor} {file : Option String} {ts : Tokens} {e : TextError}
    (h : Blamed file ts e) (tokens : ∀ t ∈ ts.tokens, k.Covers t.location)
    (stop : k.Covers ts.stop) : k.Blames e := by
  cases h with
  | @unexpected before t after e split complaint =>
    have ht : k.Covers t.location := tokens t (by simp [split])
    cases complaint with
    | closing => exact .here (by simp) ht
    | colons => exact .here (by simp) ht
  | dangling => exact .here (by simp) stop
  | @openList before l inner _ split =>
    exact .here (by simp) (tokens ⟨.opening, l⟩ (by simp [split]))

namespace SExpr

variable {file : Option String} {text : String} {e : TextError}

theorem blames_of_ofText (h : ofText file text = .error e) :
    (Cursor.ofText file text).Blames e := by
  cases scanned : Tokens.ofText file text with
  | error e' =>
    rw [ofText, scanned] at h
    cases h
    exact Tokens.blames_of_scan scanned
  | ok ts =>
    rw [ofText, scanned] at h
    obtain ⟨tokens, stop⟩ := Tokens.covers_of_scan scanned
    exact (blamed_of_ofTokens scanned h).covered tokens stop

/-- **Where complaints stand.** In the file of the text, and, with the one exception of an escaped
newline, at a character of the text or at its end. -/
theorem pointsInto_of_ofText (h : ofText file text = .error e) :
    e.location.file = file ∧
    (e.location.PointsInto text ↔ e.cause ≠ .unknownEscape '\n') ∧
    (e.cause = .unknownEscape '\n' → ∃ w, w ++ ['\\', '\n'] <+: text.toList ∧
      e.location = ⟨file, 2 + w.count '\n', 0⟩) := by
  cases blames_of_ofText h with
  | here fault covered =>
    obtain ⟨inFile, points⟩ := covered.pointsInto
    exact ⟨inFile, iff_of_true points fault, fun same => absurd same fault⟩
  | @newline l rest escape =>
    have inFile : l.file = file := escape.covers.file_eq
    obtain ⟨w, split, location⟩ := escape
    have line : l.line = 1 + w.count '\n' := by
      change l = (Location.start file).after w at location
      rw [location, Location.after_start]
    refine ⟨inFile, iff_of_false ?_ (by simp), fun _ => ⟨w, ⟨rest, ?_⟩, ?_⟩⟩
    · rintro ⟨u, -, -, column⟩
      simp only at column
      omega
    · rw [List.append_assoc]
      exact split.symm
    · simp only [inFile, line, Location.mk.injEq, true_and, and_true]
      omega

/-- The `)` that follows `b::` is blamed where it stands, on the second line. -/
theorem pointsInto_of_ofText_closing : ∃ e, ofText none "(a\n  b::)" = .error e ∧
    e.location = ⟨none, 2, 6⟩ ∧ e.location.PointsInto "(a\n  b::)" := by
  have fails : ofText none "(a\n  b::)" = .error ⟨.unexpectedClosing, ⟨none, 2, 6⟩⟩ := by
    with_unfolding_all rfl
  exact ⟨_, fails, rfl, (pointsInto_of_ofText fails).2.1.2 (by simp)⟩

/-- No character of `"\` and a newline stands in column zero. -/
theorem not_forall_pointsInto : ¬∀ (file : Option String) (text : String) (e : TextError),
    ofText file text = .error e → e.location.PointsInto text := by
  intro all
  have fails : ofText none "\"\\\n\"" = .error ⟨.unknownEscape '\n', ⟨none, 2, 0⟩⟩ := by
    with_unfolding_all rfl
  obtain ⟨w, -, -, column⟩ := all _ _ _ fails
  simp only at column
  omega

end SExpr

end TypeDomains
