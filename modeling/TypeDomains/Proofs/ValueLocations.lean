import Mathlib.Data.List.Flatten
import TypeDomains.Proofs.Filling

/-!
# The locations of values

A value stands where its first token does, and the token where the first character of its word
does. Listed in preorder, the values of a text begin with different tokens in the order of the text
(`Derivation.first_sublist`), so each stands in front of the next (`SExpr.ofText_located`).
-/

namespace TypeDomains

/-! ## Places in order -/

namespace Location

/-- Of two places in one file, the first comes first. -/
def Before (l m : Location) : Prop := l.line < m.line ∨ l.line = m.line ∧ l.column < m.column

theorem Before.trans {l m n : Location} (h : l.Before m) (h' : m.Before n) : l.Before n := by
  simp only [Before] at *
  omega

theorem Before.ne {l m : Location} (h : l.Before m) : l ≠ m := by
  rintro rfl
  simp [Before] at h

theorem before_next (l : Location) (c : Char) : l.Before (l.next c) := by
  unfold next
  split <;> simp [Before]

theorem before_after (l : Location) {w : List Char} (h : w ≠ []) : l.Before (l.after w) := by
  induction w generalizing l with
  | nil => exact absurd rfl h
  | cons c w ih =>
    have first := l.before_next c
    change l.Before ((l.next c).after w)
    cases w with
    | nil => exact first
    | cons d w => exact first.trans (ih _ (List.cons_ne_nil d w))

end Location

/-! ## The words of a text -/

/-- The token is a word of the text, and its location tells where the word begins: lines count
newlines, and columns the characters behind the last of them. -/
def Token.StandsIn (t : Token) (file : Option String) (text : String) : Prop :=
  ∃ before word behind, text.toList = before ++ (word ++ behind) ∧
    Lexeme.Reads word t.lexeme behind ∧
    t.location = ⟨file, 1 + before.count '\n', 1 + (before.rtakeWhile (· ≠ '\n')).length⟩

namespace Layout

variable {lay : Layout}

theorem exists_word (h : lay.Scanned) {l : Location} {t : Token} (ht : t ∈ (lay.tokens l).tokens) :
    ∃ before word behind, lay.text = before ++ (word ++ behind) ∧
      Lexeme.Reads word t.lexeme behind ∧ t.location = l.after before := by
  induction lay generalizing l with
  | stop gap => simp [tokens] at ht
  | token gap word x rest ih =>
    obtain ⟨-, reads, scanned⟩ := h
    rcases List.mem_cons.1 ht with rfl | ht
    · exact ⟨gap, word, rest.text, rfl, reads, rfl⟩
    · obtain ⟨before, word', behind, split, reads', location⟩ := ih scanned ht
      refine ⟨gap ++ (word ++ before), word', behind, ?_, reads', ?_⟩
      · rw [text, split]
        simp only [List.append_assoc]
      · rw [location, Location.after_append, Location.after_append]

/-- Every word takes some room, so the next one stands further on. -/
theorem pairwise_before (h : lay.Scanned) (l : Location) :
    (lay.tokens l).tokens.Pairwise fun t u => t.location.Before u.location := by
  induction lay generalizing l with
  | stop gap => exact .nil
  | token gap word x rest ih =>
    obtain ⟨-, reads, scanned⟩ := h
    refine List.pairwise_cons.2 ⟨fun u hu => ?_, ih scanned _⟩
    obtain ⟨before, -, -, -, -, location⟩ := exists_word scanned hu
    rw [location, ← Location.after_append]
    exact Location.before_after _ (by simp [reads.ne_nil])

end Layout

/-- The tokens of a text are words of it, one behind the other. -/
theorem Tokens.standsIn {file : Option String} {text : String} {ts : Tokens}
    (h : ofText file text = .ok ts) : (∀ t ∈ ts.tokens, t.StandsIn file text) ∧
      ts.tokens.Pairwise fun t u => t.location.Before u.location := by
  obtain ⟨lay, same, scanned, rfl⟩ := Layout.exists_of_scan h
  refine ⟨fun t ht => ?_, Layout.pairwise_before scanned _⟩
  obtain ⟨before, word, behind, split, reads, location⟩ := Layout.exists_word scanned ht
  rw [Location.after_start] at location
  exact ⟨before, word, behind, same ▸ split, reads, location⟩

/-! ## Values in preorder -/

namespace SExpr

/-- The value and all values inside it, each in front of its items. -/
def preorder : SExpr → List SExpr
  | atom a names l => [atom a names l]
  | list es names l => list es names l :: es.flatMap preorder

@[simp]
theorem preorder_atom (a : Atom) (names : List String) (l : Location) :
    (atom a names l).preorder = [atom a names l] := by
  rw [preorder]

@[simp]
theorem preorder_list (es : List SExpr) (names : List String) (l : Location) :
    (list es names l).preorder = list es names l :: es.flatMap preorder := by
  rw [preorder]

theorem mem_preorder_self (e : SExpr) : e ∈ e.preorder := by
  cases e <;> simp

theorem preorder_annotated (name : String) (l : Location) (e : SExpr) :
    (e.annotated name l).preorder = e.annotated name l :: e.preorder.tail := by
  cases e <;> simp [annotated]

/-- The token that the value begins with: its first annotation, or the parenthesis that opens it,
or the atom that it is. -/
inductive BeginsWith : SExpr → Token → Prop where
  | mark {e name names t} : e.annotations = name :: names → t.lexeme.name? = some name →
    BeginsWith e t
  | list {es l t} : t.lexeme = .opening → BeginsWith (.list es [] l) t
  | atom {a l t} : t.lexeme.atom? = some a → BeginsWith (.atom a [] l) t

end SExpr

namespace Derivation

/-- The derivations of the value and of all values inside it. What is marked is no value without
its mark. -/
def preorder : Derivation → List Derivation
  | leaf l => [leaf l]
  | list opening items closing => list opening items closing :: items.flatMap preorder
  | marked m d => marked m d :: d.preorder.tail

@[simp]
theorem preorder_leaf (l : Leaf) : (leaf l).preorder = [leaf l] := by
  rw [preorder]

@[simp]
theorem preorder_list (opening closing : Location) (ds : List Derivation) :
    (list opening ds closing).preorder = list opening ds closing :: ds.flatMap preorder := by
  rw [preorder]

@[simp]
theorem preorder_marked (m : Mark) (d : Derivation) :
    (marked m d).preorder = marked m d :: d.preorder.tail := by
  rw [preorder]

/-- The first of the tokens. -/
def first : Derivation → Token
  | leaf l => l.token
  | list opening _ _ => ⟨.opening, opening⟩
  | marked m _ => m.token

theorem head?_tokens (d : Derivation) : d.tokens.head? = some d.first := by
  cases d <;> simp [first]

theorem beginsWith_first (d : Derivation) : d.value.BeginsWith d.first := by
  cases d with
  | leaf l => exact value_leaf l ▸ .atom l.spells
  | list opening ds closing => exact value_list opening closing ds ▸ .list rfl
  | marked m d =>
    rw [value_marked]
    exact .mark (SExpr.annotations_annotated _ _ _) m.names

theorem location_value (d : Derivation) : d.value.location = d.first.location := by
  cases d with
  | leaf l => rw [value_leaf, first, SExpr.location]
  | list opening ds closing => rw [value_list, first, SExpr.location]
  | marked m d =>
    rw [value_marked, first]
    cases d.value <;> rfl

theorem map_value_preorder (d : Derivation) : d.preorder.map value = d.value.preorder := by
  induction d using induct with
  | leaf l => simp
  | list opening ds closing ih =>
    rw [preorder_list, value_list, SExpr.preorder_list, List.map_cons, value_list, List.map_flatMap,
      List.flatMap_map]
    exact congrArg _ (List.flatMap_congr ih)
  | marked m d ih =>
    rw [preorder_marked, value_marked, SExpr.preorder_annotated, List.map_cons, List.map_tail, ih,
      value_marked]

/-- Each value inside takes some of the tokens in a row. -/
theorem tokens_infix {d d' : Derivation} (h : d' ∈ d.preorder) : d'.tokens <:+: d.tokens := by
  induction d using induct with
  | leaf l =>
    obtain rfl := by simpa using h
    exact List.infix_refl _
  | list opening ds closing ih =>
    rcases List.mem_cons.1 (preorder_list opening closing ds ▸ h) with rfl | inside
    · exact List.infix_refl _
    · obtain ⟨item, hitem, inside⟩ := List.mem_flatMap.1 inside
      rw [tokens_list]
      have items : item.tokens <:+: ds.flatMap tokens :=
        List.infix_of_mem_flatten (List.mem_map_of_mem hitem)
      exact ((ih item hitem inside).trans items).trans
        ⟨[⟨.opening, opening⟩], [⟨.closing, closing⟩], rfl⟩
  | marked m d ih =>
    rcases List.mem_cons.1 (preorder_marked m d ▸ h) with rfl | inside
    · exact List.infix_refl _
    · rw [tokens_marked]
      exact (ih (List.mem_of_mem_tail inside)).trans
        (List.suffix_append [m.token, ⟨.colons, m.colons⟩] d.tokens).isInfix

/-- No two values begin with the same token, and those further on begin further on. -/
theorem first_sublist (d : Derivation) : (d.preorder.map first).Sublist d.tokens := by
  induction d using induct with
  | leaf l => simp [first]
  | list opening ds closing ih =>
    rw [preorder_list, tokens_list, List.map_cons, List.map_flatMap]
    exact ((List.Sublist.flatMap_right ds ih).cons_cons _).trans (List.sublist_append_left _ _)
  | marked m d ih =>
    -- The mark begins the value in place of the token that began it without the mark.
    rw [preorder_marked, tokens_marked, List.map_cons, List.map_tail]
    exact (((List.tail_sublist _).trans ih).cons _).cons_cons _

end Derivation

namespace SExpr

variable {file : Option String} {text : String} {vs : List SExpr}

/-- All values that are read from a row of tokens are derived, each from a first token of its
own. -/
theorem exists_derivations {ts : Tokens} (h : ofTokens ts = .ok vs) :
    ∃ ds : List Derivation, ds.flatMap Derivation.tokens = ts.tokens ∧
      ds.map Derivation.value = vs ∧
      (ds.flatMap Derivation.preorder).map Derivation.value = vs.flatMap preorder ∧
      ((ds.flatMap Derivation.preorder).map Derivation.first).Sublist ts.tokens := by
  obtain ⟨ds, tokens, rfl⟩ := Derivation.spelled_iff.1 (ofTokens_ok.1 h)
  refine ⟨ds, tokens, rfl, ?_, ?_⟩
  · rw [List.map_flatMap, List.flatMap_map]
    exact List.flatMap_congr fun d _ => d.map_value_preorder
  · rw [← tokens, List.map_flatMap]
    exact List.Sublist.flatMap_right ds fun d _ => d.first_sublist

/-- All values of a text stand in its file, those inside others too. -/
theorem file_of_mem_preorder (h : ofText file text = .ok vs) :
    ∀ v ∈ vs.flatMap preorder, v.location.file = file := by
  obtain ⟨ts, scanned, read⟩ := bind_ok.1 h
  obtain ⟨ds, -, -, values, firsts⟩ := exists_derivations read
  rw [← values]
  refine List.forall_mem_map.2 fun d hd => ?_
  have member := firsts.subset (List.mem_map_of_mem hd)
  rw [d.location_value]
  exact Tokens.file_of_scan scanned _ member

/-- **Values stand where they begin.** Each value that a text has at any depth is derived from some
of its tokens in a row. The first of them is what the value begins with, and the value stands where
this token does in the text. In preorder every value stands in front of those that follow, so no two
stand at the same place. -/
theorem ofText_located (h : ofText file text = .ok vs) :
    ∃ (ts : Tokens) (ds : List Derivation), Tokens.ofText file text = .ok ts ∧
      ds.flatMap Derivation.tokens = ts.tokens ∧ ds.map Derivation.value = vs ∧
      (ds.flatMap Derivation.preorder).map Derivation.value = vs.flatMap preorder ∧
      (∀ d ∈ ds.flatMap Derivation.preorder, d.tokens <:+: ts.tokens ∧
        ∃ t, d.tokens.head? = some t ∧ d.value.BeginsWith t ∧ t.StandsIn file text ∧
          d.value.location = t.location) ∧
      ((vs.flatMap preorder).map location).Pairwise Location.Before ∧
      ((vs.flatMap preorder).map location).Nodup := by
  obtain ⟨ts, scanned, read⟩ := bind_ok.1 h
  obtain ⟨ds, tokens, whole, values, firsts⟩ := exists_derivations read
  obtain ⟨standing, ordered⟩ := Tokens.standsIn scanned
  have places : (vs.flatMap preorder).map location =
      ((ds.flatMap Derivation.preorder).map Derivation.first).map Token.location := by
    rw [← values, List.map_map, List.map_map]
    exact List.map_congr_left fun d _ => d.location_value
  have increasing : ((vs.flatMap preorder).map location).Pairwise Location.Before := by
    rw [places]
    exact List.pairwise_map.2 (ordered.sublist firsts)
  refine ⟨ts, ds, scanned, tokens, whole, values, fun d hd => ?_, increasing,
    increasing.imp Location.Before.ne⟩
  obtain ⟨outer, houter, inside⟩ := List.mem_flatMap.1 hd
  have row : d.tokens <:+: ts.tokens := by
    rw [← tokens]
    exact (Derivation.tokens_infix inside).trans
      (List.infix_of_mem_flatten (List.mem_map_of_mem houter))
  have begins := d.head?_tokens
  refine ⟨row, d.first, begins, d.beginsWith_first, standing _ ?_, d.location_value⟩
  exact row.subset (List.mem_of_head? begins)

/-- The comment ends on the second line, and what is marked stands where its mark does. -/
theorem ofText_located_commented :
    ∃ vs, ofText (some "f") "('π' /*\n*/x::'y')" = .ok vs ∧
      (vs.flatMap preorder).map location = [⟨"f", 1, 1⟩, ⟨"f", 1, 2⟩, ⟨"f", 2, 3⟩] ∧
      ((vs.flatMap preorder).map location).Pairwise Location.Before := by
  have read : ofText (some "f") "('π' /*\n*/x::'y')" = .ok
      [.list [.atom (.symbol "π") [] ⟨"f", 1, 2⟩, .atom (.symbol "y") ["x"] ⟨"f", 2, 3⟩] []
        ⟨"f", 1, 1⟩] := by
    with_unfolding_all rfl
  obtain ⟨_, _, -, -, -, -, -, increasing, -⟩ := ofText_located read
  exact ⟨_, read, by simp [location], increasing⟩

end SExpr

end TypeDomains
