/-!
# Parts of a text

A text cut at every occurrence of a separator. There is always one part more than separators
(`length_partsAt`), no part has a separator, and with separators between them the parts are the text
again (`intercalate_partsAt`).
-/

namespace TypeDomains

def partsAt (separator : Char) : List Char → List (List Char)
  | [] => [[]]
  | c :: cs =>
    if c = separator then [] :: partsAt separator cs
    else
      match partsAt separator cs with
      | [] => [[c]]
      | part :: parts => (c :: part) :: parts

theorem partsAt_ne_nil (separator : Char) (cs : List Char) : partsAt separator cs ≠ [] := by
  cases cs with
  | nil => simp [partsAt]
  | cons c cs =>
    unfold partsAt
    split
    · simp
    · split <;> simp

theorem partsAt_cons_self (separator : Char) (cs : List Char) :
    partsAt separator (separator :: cs) = [] :: partsAt separator cs := by
  rw [partsAt, if_pos rfl]

/-- Any other character goes to the first part. -/
theorem exists_partsAt_cons {separator c : Char} (apart : c ≠ separator) (cs : List Char) :
    ∃ part parts, partsAt separator cs = part :: parts ∧
      partsAt separator (c :: cs) = (c :: part) :: parts := by
  obtain ⟨part, parts, h⟩ := List.exists_cons_of_ne_nil (partsAt_ne_nil separator cs)
  exact ⟨part, parts, h, by rw [partsAt, if_neg apart, h]⟩

theorem not_mem_of_mem_partsAt {separator : Char} {cs part : List Char}
    (h : part ∈ partsAt separator cs) : separator ∉ part := by
  induction cs generalizing part with
  | nil => simp_all [partsAt]
  | cons c cs ih =>
    by_cases cut : c = separator
    · subst cut
      rw [partsAt_cons_self] at h
      rcases List.mem_cons.1 h with rfl | h
      · exact List.not_mem_nil
      · exact ih h
    · obtain ⟨first, rest, hparts, hcons⟩ := exists_partsAt_cons cut cs
      rw [hcons] at h
      rw [hparts] at ih
      rcases List.mem_cons.1 h with rfl | h
      · exact List.not_mem_cons_of_ne_of_not_mem (Ne.symm cut) (ih List.mem_cons_self)
      · exact ih (List.mem_cons_of_mem _ h)

theorem partsAt_of_not_mem {separator : Char} {cs : List Char} (h : separator ∉ cs) :
    partsAt separator cs = [cs] := by
  induction cs with
  | nil => rfl
  | cons c cs ih =>
    simp only [List.mem_cons, not_or] at h
    simp only [partsAt, if_neg (Ne.symm h.1), ih h.2]

theorem length_partsAt (separator : Char) (cs : List Char) :
    (partsAt separator cs).length = cs.count separator + 1 := by
  induction cs with
  | nil => rfl
  | cons c cs ih =>
    by_cases cut : c = separator
    · subst cut
      rw [partsAt_cons_self, List.length_cons, ih, List.count_cons_self]
    · obtain ⟨part, parts, hparts, hcons⟩ := exists_partsAt_cons cut cs
      rw [hcons, List.count_cons_of_ne cut, ← ih, hparts, List.length_cons, List.length_cons]

/-! ## Parts put in a row -/

theorem partsAt_append (separator : Char) (before after : List Char) :
    partsAt separator (before ++ separator :: after) =
      partsAt separator before ++ partsAt separator after := by
  induction before with
  | nil => exact partsAt_cons_self separator after
  | cons c before ih =>
    rw [List.cons_append]
    by_cases cut : c = separator
    · subst cut
      rw [partsAt_cons_self, partsAt_cons_self, ih, List.cons_append]
    · obtain ⟨part, parts, hparts, -⟩ := exists_partsAt_cons cut before
      simp only [partsAt, if_neg cut, ih, hparts, List.cons_append]

/-- Parts that were put in a row are cut one by one. -/
theorem partsAt_intercalate_eq_flatMap {separator : Char} {parts : List (List Char)}
    (nonempty : parts ≠ []) :
    partsAt separator ([separator].intercalate parts) = parts.flatMap (partsAt separator) := by
  induction parts with
  | nil => exact absurd rfl nonempty
  | cons part parts ih =>
    cases parts with
    | nil => simp
    | cons next parts =>
      rw [List.intercalate_cons_cons, List.append_assoc, List.singleton_append, partsAt_append,
        ih (List.cons_ne_nil next parts), ← List.flatMap_cons]

theorem partsAt_intercalate {separator : Char} {parts : List (List Char)} (hparts : parts ≠ [])
    (h : ∀ part ∈ parts, separator ∉ part) :
    partsAt separator ([separator].intercalate parts) = parts := by
  have whole : ∀ part ∈ parts, partsAt separator part = [part] := fun part hpart =>
    partsAt_of_not_mem (h part hpart)
  rw [partsAt_intercalate_eq_flatMap hparts, List.flatMap_def, List.map_congr_left whole,
    ← List.flatMap_def, List.flatMap_singleton']

theorem intercalate_partsAt (separator : Char) (cs : List Char) :
    [separator].intercalate (partsAt separator cs) = cs := by
  induction cs with
  | nil => rfl
  | cons c cs ih =>
    by_cases cut : c = separator
    · subst cut
      rw [partsAt_cons_self, List.intercalate_cons_of_ne_nil (partsAt_ne_nil c cs), ih]
      rfl
    · obtain ⟨part, parts, hparts, hcons⟩ := exists_partsAt_cons cut cs
      rw [hparts] at ih
      rw [hcons]
      cases parts with
      | nil => simpa using ih
      | cons next parts =>
        rw [List.intercalate_cons_cons] at ih ⊢
        simpa using ih

theorem length_le_length_flatMap_partsAt (separator : Char) (items : List (List Char)) :
    items.length ≤ (items.flatMap (partsAt separator)).length := by
  induction items with
  | nil => exact Nat.le_refl _
  | cons item items ih =>
    rw [List.flatMap_cons, List.length_append, length_partsAt, List.length_cons]
    omega

/-- There are as many parts as items exactly if no item is cut. -/
theorem length_flatMap_partsAt_iff {separator : Char} {items : List (List Char)} :
    (items.flatMap (partsAt separator)).length = items.length ↔
      ∀ item ∈ items, separator ∉ item := by
  induction items with
  | nil => simp
  | cons item items ih =>
    have least := length_le_length_flatMap_partsAt separator items
    rw [List.forall_mem_cons, ← ih, ← List.count_eq_zero, List.flatMap_cons, List.length_append,
      length_partsAt, List.length_cons]
    omega

end TypeDomains
