import Mathlib.Data.List.Forall2
import Mathlib.Data.List.Nodup
import Mathlib.Data.List.Pairwise

/-!
# Lists

What more than one part of the theory needs of lists: rows that are cut or put together, lists
whose elements have distinct images, and lists that go in step.
-/

namespace TypeDomains

variable {α β γ : Type}

/-! ## Rows -/

/-- A row that ends with `a` has `x` at its end or before it. -/
theorem concat_eq_iff {as before after : List α} {a x : α} :
    as ++ [a] = before ++ x :: after ↔
      (as = before ∧ a = x ∧ after = []) ∨
        ∃ rest, after = rest ++ [a] ∧ as = before ++ x :: rest := by
  constructor
  · intro h
    rcases List.eq_nil_or_concat after with rfl | ⟨rest, y, rfl⟩
    · obtain ⟨rfl, same⟩ := List.append_inj' h rfl
      exact .inl ⟨rfl, List.singleton_inj.1 same, rfl⟩
    · have h : as ++ [a] = (before ++ x :: rest) ++ [y] := by simpa using h
      obtain ⟨rfl, same⟩ := List.append_inj' h rfl
      exact .inr ⟨rest, by rw [List.singleton_inj.1 same, List.concat_eq_append], rfl⟩
  · rintro (⟨rfl, rfl, rfl⟩ | ⟨rest, rfl, rfl⟩)
    · rfl
    · simp

theorem intercalate_eq_flatten (separator : α) (part : List α) (parts : List (List α)) :
    [separator].intercalate (part :: parts) = part ++ (parts.map (separator :: ·)).flatten := by
  induction parts generalizing part with
  | nil => simp
  | cons next parts ih => simp [List.intercalate_cons_cons, ih]

theorem takeWhile_dropWhile_append {p : α → Bool} {as bs : List α} (has : ∀ a ∈ as, p a)
    (hbs : ∀ b ∈ bs.head?, p b = false) :
    (as ++ bs).takeWhile p = as ∧ (as ++ bs).dropWhile p = bs := by
  rw [List.takeWhile_append_of_pos has, List.dropWhile_append_of_pos has]
  cases bs with
  | nil => simp
  | cons b bs =>
    have : p b = false := hbs b rfl
    simp [this]

theorem head?_dropWhile {p : α → Bool} (as : List α) :
    ∀ a ∈ (as.dropWhile p).head?, p a = false := by
  intro a ha
  have := List.head?_dropWhile_not p as
  rw [ha] at this
  simpa using this

/-! ## Distinct images -/

/-- Where no two have the same image, only `a` has the image of `a`. -/
theorem filter_eq_singleton [BEq β] [LawfulBEq β] {f : α → β} {as : List α} {a : α}
    (h : (as.map f).Nodup) (ha : a ∈ as) : as.filter (fun b => f b == f a) = [a] := by
  induction as with
  | nil => simp at ha
  | cons b bs ih =>
    obtain ⟨new, rest⟩ := List.nodup_cons.1 h
    rcases List.mem_cons.1 ha with rfl | ha
    · have others : bs.filter (fun c => f c == f a) = [] := by
        refine List.filter_eq_nil_iff.2 fun c hc same => new ?_
        rw [← eq_of_beq same]
        exact List.mem_map_of_mem hc
      simp [others]
    · have apart : f b ≠ f a := by
        intro same
        exact new (same ▸ List.mem_map_of_mem ha)
      simp [apart, ih rest ha]

/-- Where no two have the same image, a search for the image of `a` finds `a`. -/
theorem find?_of_nodup [BEq β] [LawfulBEq β] {f : α → β} {as : List α} {a : α}
    (h : (as.map f).Nodup) (ha : a ∈ as) : as.find? (fun b => f b == f a) = some a := by
  rw [← List.head?_filter, filter_eq_singleton h ha, List.head?_cons]

/-- What is found has the image that is searched for, and there is no other. -/
theorem find?_iff_of_nodup [BEq β] [LawfulBEq β] {f : α → β} {as : List α}
    (h : (as.map f).Nodup) {a : α} {b : β} :
    as.find? (f · == b) = some a ↔ a ∈ as ∧ f a = b := by
  constructor
  · intro found
    exact ⟨List.mem_of_find?_eq_some found, by simpa using List.find?_some found⟩
  · rintro ⟨member, rfl⟩
    exact find?_of_nodup h member

/-- Where the images are distinct as a whole, only one of them holds `x`. -/
theorem eq_of_nodup_flatMap {f : α → List β} {as : List α} {a b : α} {x : β}
    (h : (as.flatMap f).Nodup) (ha : a ∈ as) (hb : b ∈ as) (hx : x ∈ f a) (hy : x ∈ f b) :
    a = b := by
  have : Std.Symm (Function.onFun List.Disjoint f) :=
    ⟨fun _ _ disjoint _ left right => disjoint right left⟩
  by_contra apart
  exact (List.nodup_flatMap.1 h).2.forall ha hb apart hx hy

/-- The first of the two lists loses its one element of that image, or else the second loses
one. -/
theorem eraseP_append {f : α → String} {a : String} {olds : List α} (news : List α)
    (h : (olds.map f).Nodup) : ∃ rest, rest ⊆ news ∧
      (olds ++ news).eraseP (f · == a) = olds.filter (f · != a) ++ rest := by
  induction olds with
  | nil => exact ⟨news.eraseP (f · == a), List.eraseP_subset, rfl⟩
  | cons v olds ih =>
    obtain ⟨new, h⟩ := List.nodup_cons.1 h
    by_cases found : f v = a
    · subst found
      have others : ∀ w ∈ olds, f w ≠ f v := fun w hw same => new (same ▸ List.mem_map_of_mem hw)
      have kept : olds.filter (f · != f v) = olds :=
        List.filter_eq_self.2 fun w hw => by simpa using others w hw
      exact ⟨news, List.Subset.refl _, by simp [kept]⟩
    · obtain ⟨rest, hrest, erased⟩ := ih h
      exact ⟨rest, hrest, by simp [found, erased]⟩

/-! ## Lists in step -/

theorem exists_of_forall₂_left {R : α → β → Prop} {as : List α} {bs : List β}
    (h : List.Forall₂ R as bs) {a : α} (ha : a ∈ as) : ∃ b ∈ bs, R a b := by
  induction h with
  | nil => simp at ha
  | cons hab _ ih =>
    rcases List.mem_cons.1 ha with rfl | ha
    · exact ⟨_, List.mem_cons_self, hab⟩
    · obtain ⟨b, hb, h⟩ := ih ha
      exact ⟨b, List.mem_cons_of_mem _ hb, h⟩

theorem exists_of_forall₂_right {R : α → β → Prop} {as : List α} {bs : List β}
    (h : List.Forall₂ R as bs) {b : β} (hb : b ∈ bs) : ∃ a ∈ as, R a b :=
  exists_of_forall₂_left h.flip hb

/-- What `f` keeps are the images of those with `q`. -/
theorem forall₂_filterMap {R : α → β → Prop} {as : List α} {q : α → Bool}
    {f : α → Option β}
    (some : ∀ a ∈ as, q a → ∃ b, f a = some b ∧ R a b) (none : ∀ a ∈ as, ¬q a → f a = none) :
    List.Forall₂ R (as.filter q) (as.filterMap f) := by
  induction as with
  | nil => exact .nil
  | cons a as ih =>
    obtain ⟨first, some⟩ := List.forall_mem_cons.1 some
    obtain ⟨first', none⟩ := List.forall_mem_cons.1 none
    by_cases ha : q a
    · obtain ⟨b, hb, hab⟩ := first ha
      rw [List.filter_cons_of_pos ha, List.filterMap_cons_some hb]
      exact .cons hab (ih some none)
    · rw [List.filter_cons_of_neg ha, List.filterMap_cons_none (first' ha)]
      exact ih some none

theorem map_eq_map_iff_forall₂ {f : α → γ} {g : β → γ} {as : List α} {bs : List β} :
    as.map f = bs.map g ↔ List.Forall₂ (fun a b => f a = g b) as bs := by
  rw [← List.forall₂_eq_eq_eq, List.forall₂_map_left_iff, List.forall₂_map_right_iff]

/-- Where every element has something new behind the old, all have it so, up to the order. -/
theorem perm_flatMap_append {R : α → β → Prop} {f : α → List γ} {g : β → List γ}
    (new : α → β → List γ) (split : ∀ a b, R a b → g b = f a ++ new a b) {as : List α}
    {bs : List β} (h : List.Forall₂ R as bs) :
    (bs.flatMap g).Perm (as.flatMap f ++ (List.zipWith new as bs).flatten) := by
  induction h with
  | nil => exact .refl _
  | @cons a b as bs hab _ ih =>
    rw [List.flatMap_cons, List.flatMap_cons, List.zipWith_cons_cons, List.flatten_cons,
      split a b hab, List.append_assoc, List.append_assoc]
    exact ((ih.append_left (new a b)).trans (List.perm_append_comm_assoc ..)).append_left (f a)

theorem isEqv_iff_map_eq {r : α → α → Bool} {f : α → β}
    (h : ∀ a b, r a b ↔ f a = f b) (as bs : List α) :
    as.isEqv bs r ↔ as.map f = bs.map f := by
  induction as generalizing bs with
  | nil => cases bs <;> simp [List.isEqv]
  | cons a as ih =>
    cases bs with
    | nil => simp [List.isEqv]
    | cons b bs => simp [List.isEqv, h, ih]

theorem isEqv_map {f : α → α} {same : α → α → Bool}
    (h : ∀ a b, same (f a) (f b) = same a b) (as bs : List α) :
    (as.map f).isEqv (bs.map f) same = as.isEqv bs same := by
  induction as generalizing bs with
  | nil => cases bs <;> rfl
  | cons a as ih =>
    cases bs with
    | nil => rfl
    | cons b bs => simp only [List.map_cons, List.isEqv, h, ih]

end TypeDomains
