import TypeDomains.Proofs.Edits

/-!
# The outcome of a permutation

What becomes of a base within the rules under a permutation that changes no sum twice: when it goes
through and what comes of it then, and which name is at fault where it does not
(`Permutation.toDomain_exact`).
-/

namespace TypeDomains

/-! ## Removals in a row -/

/-- The names can be taken out one after the other. -/
structure Takes (names : List String) (is : List Ident) : Prop where
  distinct : (is.map Ident.name).Nodup
  present : ∀ i ∈ is, i.name ∈ names

/-- The name is not there, or one of those before has taken it. -/
def Lacks (names : List String) (before : List Ident) (i : Ident) : Prop :=
  i.name ∉ names ∨ i.name ∈ before.map Ident.name

/-- Takes out the first element of that name. -/
def takeFirst {α : Type} (f : α → String) (complaint : Ident → DomainError) (as : List α)
    (i : Ident) : Except DomainError (List α) :=
  if as.any (f · == i.name) then .ok (as.eraseP (f · == i.name)) else .error (complaint i)

section Removal

variable {α : Type} {f : α → String} {complaint : Ident → DomainError} {as bs : List α} {i : Ident}
  {is : List Ident} {e : DomainError}

theorem takes_cons : Takes (as.map f) (i :: is) ↔
    i.name ∈ as.map f ∧ Takes ((as.filter (f · != i.name)).map f) is := by
  constructor
  · rintro ⟨distinct, present⟩
    obtain ⟨first, present⟩ := List.forall_mem_cons.1 present
    obtain ⟨new, distinct⟩ := List.nodup_cons.1 distinct
    refine ⟨first, distinct, fun j hj => ?_⟩
    obtain ⟨a, ha, name⟩ := List.mem_map.1 (present j hj)
    have apart : f a ≠ i.name := fun same =>
      new (List.mem_map.2 ⟨j, hj, name.symm.trans same⟩)
    exact List.mem_map.2 ⟨a, List.mem_filter.2 ⟨ha, by simpa using apart⟩, name⟩
  · rintro ⟨first, distinct, present⟩
    have kept (j : Ident) (hj : j ∈ is) : j.name ∈ as.map f ∧ j.name ≠ i.name := by
      obtain ⟨a, ha, name⟩ := List.mem_map.1 (present j hj)
      obtain ⟨ha, apart⟩ := List.mem_filter.1 ha
      exact ⟨List.mem_map.2 ⟨a, ha, name⟩, by simpa [← name] using apart⟩
    refine ⟨List.nodup_cons.2 ⟨?_, distinct⟩,
      List.forall_mem_cons.2 ⟨first, fun j hj => (kept j hj).1⟩⟩
    intro again
    obtain ⟨j, hj, name⟩ := List.mem_map.1 again
    exact (kept j hj).2 name

/-- A removal that is not possible behind the others is at fault. -/
theorem takes_or_lacks (names : List String) (is : List Ident) :
    Takes names is ∨
      ∃ before i after, is = before ++ i :: after ∧ Takes names before ∧ Lacks names before i := by
  induction is using List.reverseRecOn with
  | nil => exact .inl ⟨List.nodup_nil, by simp⟩
  | append_singleton is i ih =>
    rcases ih with takes | ⟨before, j, after, rfl, takes, lacks⟩
    · by_cases lacks : Lacks names is i
      · exact .inr ⟨is, i, [], rfl, takes, lacks⟩
      · obtain ⟨present, new⟩ := by simpa only [Lacks, not_or, not_not] using lacks
        refine .inl ⟨?_, List.forall_mem_append.2 ⟨takes.present, by simpa using present⟩⟩
        rw [List.map_append]
        exact takes.distinct.append (List.nodup_singleton _) (by simpa using new)
    · exact .inr ⟨before, j, after ++ [i], by simp, takes, lacks⟩

theorem takeFirst_ok (nodup : (as.map f).Nodup) : takeFirst f complaint as i = .ok bs ↔
    i.name ∈ as.map f ∧ as.filter (f · != i.name) = bs := by
  obtain ⟨rest, hrest, erased⟩ := eraseP_append (a := i.name) [] nodup
  rw [List.subset_nil.1 hrest, List.append_nil, List.append_nil] at erased
  unfold takeFirst
  by_cases present : i.name ∈ as.map f
  · have found : as.any (f · == i.name) := by simpa using present
    simp only [found, erased, present, ↓reduceIte, Except.ok.injEq, true_and]
  · have absent : ¬as.any (f · == i.name) := by simpa using present
    simp only [absent, present, Bool.false_eq_true, ↓reduceIte, reduceCtorEq, false_and]

theorem takeFirst_error : takeFirst f complaint as i = .error e ↔
    i.name ∉ as.map f ∧ complaint i = e := by
  unfold takeFirst
  by_cases present : i.name ∈ as.map f
  · have found : as.any (f · == i.name) := by simpa using present
    simp only [found, present, ↓reduceIte, reduceCtorEq, not_true_eq_false, false_and]
  · have absent : ¬as.any (f · == i.name) := by simpa using present
    simp only [absent, present, Bool.false_eq_true, ↓reduceIte, Except.error.injEq,
      not_false_eq_true, true_and]

/-- All removals together leave what none of them names. -/
theorem foldlM_takeFirst_ok (nodup : (as.map f).Nodup) :
    is.foldlM (takeFirst f complaint) as = .ok bs ↔
      Takes (as.map f) is ∧ as.filter (fun a => !is.any (·.name == f a)) = bs := by
  induction is generalizing as with
  | nil =>
    have takes : Takes (as.map f) [] := ⟨List.nodup_nil, by simp⟩
    simp [pure_ok, takes]
  | cons i is ih =>
    have nodup' : ((as.filter (f · != i.name)).map f).Nodup :=
      nodup.sublist (List.filter_sublist.map _)
    simp only [List.foldlM_cons, bind_ok, takeFirst_ok nodup, takes_cons, and_assoc]
    constructor
    · rintro ⟨_, present, rfl, run⟩
      obtain ⟨takes, rfl⟩ := (ih nodup').1 run
      exact ⟨present, takes, (filter_any_cons f as i is).symm⟩
    · rintro ⟨present, takes, rfl⟩
      exact ⟨_, present, rfl, (ih nodup').2 ⟨takes, filter_any_cons f as i is⟩⟩

theorem foldlM_takeFirst_error (nodup : (as.map f).Nodup) :
    is.foldlM (takeFirst f complaint) as = .error e ↔
      ∃ before i after, is = before ++ i :: after ∧ Takes (as.map f) before ∧
        Lacks (as.map f) before i ∧ complaint i = e := by
  have gone (before : List Ident) (i : Ident) :
      i.name ∉ (as.filter fun a => !before.any (·.name == f a)).map f ↔
        Lacks (as.map f) before i := by
    simp only [List.mem_map, List.mem_filter, Lacks]
    grind
  simp only [foldlM_error, foldlM_takeFirst_ok nodup, takeFirst_error]
  constructor
  · rintro ⟨before, i, after, _, rfl, ⟨takes, rfl⟩, lacks, rfl⟩
    exact ⟨before, i, after, rfl, takes, (gone before i).1 lacks, rfl⟩
  · rintro ⟨before, i, after, rfl, takes, lacks, rfl⟩
    exact ⟨before, i, after, _, rfl, ⟨takes, rfl⟩, (gone before i).2 lacks, rfl⟩

end Removal

/-! ## One change to a sum -/

namespace SumChange

variable {c : SumChange} {types types' : List DataType} {e : DomainError}

/-- There is a sum to change, and it has the variants that are removed. -/
def Fits (types : List DataType) (c : SumChange) : Prop :=
  ∃ s, .sum s ∈ types ∧ s.tag = c.tag ∧ Takes (s.variants.map Tuple.tag) c.removed

/-- Why the change cannot be made. The sum is looked for before any of its variants. -/
inductive Fails (types : List DataType) (c : SumChange) : DomainError → Prop where
  | missing : ¬Builtin.isTag c.tag → (∀ t ∈ types, t.tag ≠ c.tag) →
    Fails types c ⟨.sumMissing c.tag, c.location⟩
  | builtin : Builtin.isTag c.tag → Fails types c ⟨.notASum c.tag, c.location⟩
  | notASum {t} : t ∈ types → t.tag = c.tag → (∀ s, t ≠ .sum s) →
    Fails types c ⟨.notASum c.tag, c.location⟩
  | variant {s before i after} : .sum s ∈ types → s.tag = c.tag → c.removed = before ++ i :: after →
    Takes (s.variants.map Tuple.tag) before → Lacks (s.variants.map Tuple.tag) before i →
    Fails types c ⟨.variantMissing c.tag i.name, i.location⟩

/-- The sum without the removed variants, and with those that are added behind the others. -/
def changed (c : SumChange) (s : Sum) : Sum :=
  { s with variants := s.variants.filter (fun v => !c.removed.any (·.name == v.tag)) ++ c.added }

/-- What changes to distinct sums make of a type. -/
def amend (cs : List SumChange) : DataType → DataType
  | .sum s =>
    match cs.find? (·.tag == s.tag) with
    | some c => .sum (c.changed s)
    | none => .sum s
  | t => t

theorem amend_of_ne {cs : List SumChange} {t : DataType} (h : ∀ c ∈ cs, c.tag ≠ t.tag) :
    amend cs t = t := by
  cases t with
  | builtin b | tuple t => rfl
  | sum s =>
    have none : cs.find? (·.tag == s.tag) = none :=
      List.find?_eq_none.2 fun c hc same => h c hc (by simpa [DataType.tag] using same)
    rw [amend, none]

/-- A type among others with distinct tags. -/
theorem exists_split (tags : (types.map DataType.tag).Nodup) {t : DataType} (ht : t ∈ types) :
    ∃ before after, types = before ++ t :: after ∧ (∀ u ∈ before, u.tag ≠ t.tag) ∧
      ∀ u ∈ after, u.tag ≠ t.tag := by
  obtain ⟨before, after, rfl⟩ := List.append_of_mem ht
  rw [List.map_append, List.map_cons, List.nodup_append, List.nodup_cons] at tags
  obtain ⟨-, ⟨new, -⟩, disjoint⟩ := tags
  refine ⟨before, after, rfl, fun u hu same => ?_, fun u hu same => ?_⟩
  · exact disjoint u.tag (List.mem_map_of_mem hu) t.tag List.mem_cons_self same
  · exact new (same ▸ List.mem_map_of_mem hu)

theorem change_ok_iff {s s' : Sum} (nodup : (s.variants.map Tuple.tag).Nodup) :
    c.change s = .ok s' ↔ Takes (s.variants.map Tuple.tag) c.removed ∧ c.changed s = s' := by
  have removal (vs : List Tuple) : c.removed.foldlM (removeVariant c.tag) s.variants = .ok vs ↔ _ :=
    foldlM_takeFirst_ok nodup
  simp only [change_ok, removal]
  constructor
  · rintro ⟨_, ⟨takes, rfl⟩, rfl⟩
    exact ⟨takes, rfl⟩
  · rintro ⟨takes, rfl⟩
    exact ⟨_, ⟨takes, rfl⟩, rfl⟩

theorem change_error_iff {s : Sum} (nodup : (s.variants.map Tuple.tag).Nodup) :
    c.change s = .error e ↔ ∃ before i after, c.removed = before ++ i :: after ∧
      Takes (s.variants.map Tuple.tag) before ∧ Lacks (s.variants.map Tuple.tag) before i ∧
        ⟨.variantMissing c.tag i.name, i.location⟩ = e := by
  have removal : c.removed.foldlM (removeVariant c.tag) s.variants = .error e ↔ _ :=
    foldlM_takeFirst_error nodup
  rw [← removal]
  unfold change
  cases c.removed.foldlM (removeVariant c.tag) s.variants <;>
    simp [bind, Except.bind, pure, Except.pure]

/-- A change reaches the one sum of its tag. -/
theorem apply_of_sum {s : Sum} (own : ¬Builtin.isTag c.tag) (tags : (types.map DataType.tag).Nodup)
    (hs : .sum s ∈ types) (tag : s.tag = c.tag) : c.apply types =
      (c.change s).map fun s' => types.map fun t => if t.tag = c.tag then .sum s' else t := by
  obtain ⟨before, after, rfl, free, free'⟩ := exists_split tags hs
  have others {us : List DataType} (hus : ∀ u ∈ us, u.tag ≠ s.tag) (s' : Sum) :
      us.map (fun t => if t.tag = c.tag then DataType.sum s' else t) = us :=
    (List.map_congr_left fun u hu => if_neg (tag ▸ hus u hu)).trans (List.map_id _)
  have place : (DataType.sum s).tag = c.tag := tag
  rw [apply, if_neg own, changeFirst_append fun u hu => tag ▸ free u hu, changeFirst_cons_sum tag]
  simp only [List.map_append, List.map_cons, others free, others free', place, ↓reduceIte]
  cases c.change s <;> rfl

/-- What a change to the sum needs to know of the types it is made to. -/
structure Ordinary (types : List DataType) (sum : String) : Prop where
  tags : (types.map DataType.tag).Nodup
  own : ∀ t ∈ types, ¬Builtin.isTag t.tag
  variants : ∀ s, .sum s ∈ types → s.tag = sum → (s.variants.map Tuple.tag).Nodup

theorem apply_of_fits (h : Ordinary types c.tag) (fits : Fits types c) :
    c.apply types = .ok (types.map (amend [c])) := by
  obtain ⟨s, hs, tag, takes⟩ := fits
  have own : ¬Builtin.isTag c.tag := tag ▸ h.own _ hs
  rw [apply_of_sum own h.tags hs tag, (change_ok_iff (h.variants s hs tag)).2 ⟨takes, rfl⟩]
  refine congrArg Except.ok (List.map_congr_left fun t ht => ?_)
  by_cases place : t.tag = c.tag
  · obtain rfl := List.inj_on_of_nodup_map h.tags ht hs (place.trans tag.symm)
    rw [if_pos place, amend]
    simp [tag]
  · rw [if_neg place, amend_of_ne (by simpa using Ne.symm place)]

theorem apply_of_fails (h : Ordinary types c.tag) (fails : Fails types c e) :
    c.apply types = .error e := by
  cases fails with
  | missing own absent => rw [apply, if_neg own, changeFirst_of_missing absent]
  | builtin own => rw [apply, if_pos own]
  | @notASum t ht tag kind =>
    obtain ⟨before, after, rfl, free, -⟩ := exists_split h.tags ht
    rw [apply, if_neg (tag ▸ h.own t ht), changeFirst_append fun u hu => tag ▸ free u hu,
      changeFirst_cons_of_not_sum tag kind]
    rfl
  | @variant s before i after hs tag split takes lacks =>
    have own : ¬Builtin.isTag c.tag := tag ▸ h.own _ hs
    rw [apply_of_sum own h.tags hs tag,
      (change_error_iff (h.variants s hs tag)).2 ⟨before, i, after, split, takes, lacks, rfl⟩]
    rfl

theorem fits_or_fails (types : List DataType) (c : SumChange) :
    Fits types c ∨ ∃ e, Fails types c e := by
  by_cases own : Builtin.isTag c.tag
  · exact .inr ⟨_, .builtin own⟩
  by_cases found : ∃ t ∈ types, t.tag = c.tag
  · obtain ⟨t, ht, tag⟩ := found
    cases t with
    | builtin b | tuple u => exact .inr ⟨_, .notASum ht tag (by simp)⟩
    | sum s =>
      rcases takes_or_lacks (s.variants.map Tuple.tag) c.removed with
        takes | ⟨before, i, after, split, takes, lacks⟩
      · exact .inl ⟨s, ht, tag, takes⟩
      · exact .inr ⟨_, .variant ht tag split takes lacks⟩
  · exact .inr ⟨_, .missing own fun t ht tag => found ⟨t, ht, tag⟩⟩

theorem apply_ok_iff (h : Ordinary types c.tag) :
    c.apply types = .ok types' ↔ Fits types c ∧ types.map (amend [c]) = types' := by
  constructor
  · intro made
    rcases fits_or_fails types c with fits | ⟨e, fails⟩
    · exact ⟨fits, Except.ok.inj ((apply_of_fits h fits).symm.trans made)⟩
    · simp [apply_of_fails h fails] at made
  · rintro ⟨fits, rfl⟩
    exact apply_of_fits h fits

theorem apply_error_iff (h : Ordinary types c.tag) :
    c.apply types = .error e ↔ Fails types c e := by
  constructor
  · intro complaint
    rcases fits_or_fails types c with fits | ⟨e', fails⟩
    · simp [apply_of_fits h fits] at complaint
    · obtain rfl := Except.error.inj ((apply_of_fails h fails).symm.trans complaint)
      exact fails
  · exact apply_of_fails h

/-! ## Changes to distinct sums -/

variable {cs : List SumChange}

theorem tag_amend (cs : List SumChange) (t : DataType) : (amend cs t).tag = t.tag := by
  cases t with
  | builtin b | tuple t => rfl
  | sum s =>
    rw [amend]
    split <;> rfl

theorem mem_map_amend {t : DataType} (apart : ∀ c ∈ cs, c.tag ≠ t.tag) :
    t ∈ types.map (amend cs) ↔ t ∈ types := by
  rw [List.mem_map]
  constructor
  · rintro ⟨u, hu, rfl⟩
    rw [tag_amend] at apart
    rwa [amend_of_ne apart]
  · exact fun ht => ⟨t, ht, amend_of_ne apart⟩

/-- Whether a change can be made hangs on the types of its tag. -/
theorem fits_congr (h : ∀ t : DataType, t.tag = c.tag → (t ∈ types ↔ t ∈ types')) :
    Fits types c ↔ Fits types' c := by
  have same (s : Sum) : .sum s ∈ types ∧ s.tag = c.tag ↔ .sum s ∈ types' ∧ s.tag = c.tag :=
    and_congr_left fun tag => h (.sum s) tag
  simp only [Fits, ← and_assoc, same]

theorem Fails.of_congr (h : ∀ t : DataType, t.tag = c.tag → (t ∈ types ↔ t ∈ types'))
    (fails : Fails types c e) : Fails types' c e := by
  cases fails with
  | missing own absent =>
    exact .missing own fun t ht tag => absent t ((h t tag).2 ht) tag
  | builtin own => exact .builtin own
  | notASum ht tag kind => exact .notASum ((h _ tag).1 ht) tag kind
  | variant hs tag split takes lacks => exact .variant ((h (.sum _) tag).1 hs) tag split takes lacks

theorem Ordinary.map_amend (h : Ordinary types c.tag) (apart : ∀ b ∈ cs, b.tag ≠ c.tag) :
    Ordinary (types.map (amend cs)) c.tag where
  tags := by
    have same : DataType.tag ∘ amend cs = DataType.tag := funext (tag_amend cs)
    rw [List.map_map, same]
    exact h.tags
  own t ht := by
    obtain ⟨u, hu, rfl⟩ := List.mem_map.1 ht
    rw [tag_amend]
    exact h.own u hu
  variants s hs tag := by
    have place : (DataType.sum s).tag = c.tag := tag
    exact h.variants s ((mem_map_amend (place ▸ apart)).1 hs) tag

theorem amend_concat (apart : ∀ b ∈ cs, b.tag ≠ c.tag) (t : DataType) :
    amend (cs ++ [c]) t = amend [c] (amend cs t) := by
  cases t with
  | builtin b | tuple t => rfl
  | sum s =>
    simp only [amend, List.find?_append]
    cases found : cs.find? (·.tag == s.tag) with
    | none => rfl
    | some b =>
      have tag : b.tag = s.tag := by simpa using List.find?_some found
      have other : c.tag ≠ s.tag := fun same => apart b (List.mem_of_find?_eq_some found)
        (tag.trans same.symm)
      have kept : [c].find? (·.tag == (b.changed s).tag) = none := by
        simpa [changed] using other
      simp only [Option.some_or, kept]

/-- The sums that the changes before it have changed are not its own. -/
theorem apart_of_nodup {before after : List SumChange}
    (single : ((before ++ c :: after).map SumChange.tag).Nodup) : ∀ b ∈ before, b.tag ≠ c.tag := by
  rw [List.map_append, List.map_cons] at single
  intro b hb same
  exact (List.nodup_append.1 single).2.2 b.tag (List.mem_map_of_mem hb) c.tag
    List.mem_cons_self same

theorem foldlM_apply_ok (h : ∀ sum, Ordinary types sum) (single : (cs.map SumChange.tag).Nodup) :
    cs.foldlM apply types = .ok types' ↔
      (∀ c ∈ cs, Fits types c) ∧ types.map (amend cs) = types' := by
  induction cs using List.reverseRecOn generalizing types' with
  | nil =>
    have same : types.map (amend []) = types :=
      (List.map_congr_left fun t _ => amend_of_ne (by simp)).trans (List.map_id _)
    simp [pure_ok, same]
  | append_singleton cs c ih =>
    have apart := apart_of_nodup single
    have single' : (cs.map SumChange.tag).Nodup :=
      single.sublist ((List.sublist_append_left _ _).map _)
    have step (types' : List DataType) : c.apply (types.map (amend cs)) = .ok types' ↔
        Fits types c ∧ types.map (amend (cs ++ [c])) = types' := by
      rw [apply_ok_iff ((h c.tag).map_amend apart),
        fits_congr fun t tag => mem_map_amend (tag ▸ apart), List.map_map]
      simp only [Function.comp_def, ← amend_concat apart]
    simp only [List.foldlM_append, bind_ok, ih single', List.foldlM_cons, List.foldlM_nil,
      bind_pure, List.forall_mem_append, List.forall_mem_singleton, and_assoc]
    constructor
    · rintro ⟨_, fits, rfl, last⟩
      exact ⟨fits, (step _).1 last⟩
    · rintro ⟨fits, last⟩
      exact ⟨_, fits, rfl, (step _).2 last⟩

theorem foldlM_apply_error (h : ∀ sum, Ordinary types sum)
    (single : (cs.map SumChange.tag).Nodup) : cs.foldlM apply types = .error e ↔
      ∃ before c after, cs = before ++ c :: after ∧ (∀ b ∈ before, Fits types b) ∧
        Fails types c e := by
  rw [foldlM_error]
  have parts {before after : List SumChange} {c : SumChange} (split : cs = before ++ c :: after) :
      (before.map SumChange.tag).Nodup ∧
        ∀ t : DataType, t.tag = c.tag → (t ∈ types.map (amend before) ↔ t ∈ types) := by
    rw [split] at single
    exact ⟨single.sublist ((List.sublist_append_left _ _).map _),
      fun t tag => mem_map_amend (tag ▸ apart_of_nodup single)⟩
  constructor
  · rintro ⟨before, c, after, _, split, run, fails⟩
    obtain ⟨single', same⟩ := parts split
    obtain ⟨fits, rfl⟩ := (foldlM_apply_ok h single').1 run
    have apart := apart_of_nodup (split ▸ single)
    exact ⟨before, c, after, split, fits,
      ((apply_error_iff ((h c.tag).map_amend apart)).1 fails).of_congr same⟩
  · rintro ⟨before, c, after, split, fits, fails⟩
    obtain ⟨single', same⟩ := parts split
    have apart := apart_of_nodup (split ▸ single)
    exact ⟨before, c, after, _, split, (foldlM_apply_ok h single').2 ⟨fits, rfl⟩,
      apply_of_fails ((h c.tag).map_amend apart) (fails.of_congr fun t tag => (same t tag).symm)⟩

end SumChange

/-! ## The whole permutation -/

theorem Builtin.isTag_iff {name : String} : isTag name ↔ name ∈ all.map tag := by
  simp [isTag]

/-- The types of a domain within the rules are its own. -/
theorem Domain.Lawful.not_isTag {d : Domain} (h : d.Lawful) {t : DataType} (ht : t ∈ d.types) :
    ¬Builtin.isTag t.tag :=
  fun builtin => h.builtin_not_mem_names ht (Builtin.isTag_iff.1 builtin) t.tag_mem_names

/-- The complaint about a name that cannot be left out. -/
def Ident.kept (i : Ident) : DomainError :=
  ⟨if Builtin.isTag i.name then .builtinExcluded i.name else .excludedMissing i.name, i.location⟩

/-- Among types of its own a domain has no built-in one to leave out. -/
theorem foldlM_excludeType_eq {types : List DataType} (own : ∀ t ∈ types, ¬Builtin.isTag t.tag)
    (is : List Ident) :
    is.foldlM excludeType types = is.foldlM (takeFirst DataType.tag Ident.kept) types := by
  induction is generalizing types with
  | nil => rfl
  | cons i is ih =>
    have step : excludeType types i = takeFirst DataType.tag Ident.kept types i := by
      unfold excludeType takeFirst Ident.kept
      by_cases builtin : Builtin.isTag i.name
      · have absent : types.any (·.tag == i.name) = false := by
          rw [List.any_eq_false]
          intro t ht same
          exact own t ht ((by simpa using same : t.tag = i.name) ▸ builtin)
        simp [builtin, absent]
      · simp [builtin]
    rw [List.foldlM_cons, List.foldlM_cons, step]
    cases made : takeFirst DataType.tag Ident.kept types i with
    | error e => rfl
    | ok types' =>
      refine ih fun t ht => own t ?_
      unfold takeFirst at made
      split at made
      · obtain rfl := Except.ok.inj made
        exact List.eraseP_subset ht
      · simp at made

namespace Permutation

variable (p : Permutation)

/-- The types of the base that are not left out. -/
def left (base : Domain) : List DataType := base.types.filter (!p.excludes ·)

/-- What comes of the base if nothing is at fault. -/
def outcome (base : Domain) : Domain :=
  ⟨p.tag, (p.left base).map (SumChange.amend p.sums) ++ p.included, p.location⟩

/-- All names that the permutation needs in its base are there. -/
structure Sound (base : Domain) : Prop where
  excluded : Takes (base.types.map DataType.tag) p.excluded
  sums : ∀ c ∈ p.sums, c.Fits (p.left base)

/-- The first name that is at fault. -/
inductive Offends (base : Domain) : DomainError → Prop where
  | builtin {before i after} : p.excluded = before ++ i :: after →
    Takes (base.types.map DataType.tag) before → Builtin.isTag i.name →
    Offends base ⟨.builtinExcluded i.name, i.location⟩
  | excluded {before i after} : p.excluded = before ++ i :: after →
    Takes (base.types.map DataType.tag) before → ¬Builtin.isTag i.name →
    Lacks (base.types.map DataType.tag) before i →
    Offends base ⟨.excludedMissing i.name, i.location⟩
  | sum {before c after e} : Takes (base.types.map DataType.tag) p.excluded →
    p.sums = before ++ c :: after → (∀ b ∈ before, b.Fits (p.left base)) →
    c.Fails (p.left base) e → Offends base e

variable {p} {ds : List Domain} {base d : Domain} {e : DomainError}

theorem excluded_ok (h : base.Lawful) {left : List DataType} :
    p.excluded.foldlM excludeType base.types = .ok left ↔
      Takes (base.types.map DataType.tag) p.excluded ∧ p.left base = left := by
  rw [foldlM_excludeType_eq (fun _ => h.not_isTag), foldlM_takeFirst_ok h.nodup_tags]
  rfl

theorem excluded_error (h : base.Lawful) : p.excluded.foldlM excludeType base.types = .error e ↔
    ∃ before i after, p.excluded = before ++ i :: after ∧
      Takes (base.types.map DataType.tag) before ∧ Lacks (base.types.map DataType.tag) before i ∧
        i.kept = e := by
  rw [foldlM_excludeType_eq (fun _ => h.not_isTag), foldlM_takeFirst_error h.nodup_tags]

theorem ordinary_left (h : base.Lawful) (sum : String) : SumChange.Ordinary (p.left base) sum where
  tags := h.nodup_tags.sublist (List.filter_sublist.map _)
  own _ ht := h.not_isTag (List.mem_of_mem_filter ht)
  variants _ hs _ := h.nodup_variants (List.mem_of_mem_filter hs)

theorem alterTypes_error {types : List DataType} : p.alterTypes types = .error e ↔
    p.excluded.foldlM excludeType types = .error e ∨
      ∃ left, p.excluded.foldlM excludeType types = .ok left ∧
        p.sums.foldlM SumChange.apply left = .error e := by
  unfold alterTypes
  cases p.excluded.foldlM excludeType types with
  | error e' => simp [bind, Except.bind]
  | ok left =>
    cases hs : p.sums.foldlM SumChange.apply left <;>
      simp [bind, Except.bind, pure, Except.pure, hs]

theorem toDomain_error (found : Domain.find? ds p.base = some base) :
    p.toDomain ds = .error e ↔ p.alterTypes base.types = .error e := by
  rw [toDomain_of_find found]
  cases p.alterTypes base.types <;> simp [Except.map]

theorem toDomain_ok_iff_sound (h : base.Lawful) (found : Domain.find? ds p.base = some base)
    (single : (p.sums.map SumChange.tag).Nodup) :
    p.toDomain ds = .ok d ↔ p.Sound base ∧ p.outcome base = d := by
  have ordinary := ordinary_left (p := p) h
  simp only [toDomain_ok, found, Option.some.injEq, exists_eq_left', alterTypes_ok,
    excluded_ok h, and_assoc]
  constructor
  · rintro ⟨_, ⟨_, takes, rfl, _, run, rfl⟩, rfl⟩
    obtain ⟨fits, rfl⟩ := (SumChange.foldlM_apply_ok ordinary single).1 run
    exact ⟨⟨takes, fits⟩, rfl⟩
  · rintro ⟨⟨takes, fits⟩, rfl⟩
    exact ⟨_, ⟨_, takes, rfl, _, (SumChange.foldlM_apply_ok ordinary single).2 ⟨fits, rfl⟩, rfl⟩,
      rfl⟩

/-- A built-in type is not there to be left out. -/
theorem lacks_of_builtin (h : base.Lawful) {i : Ident} (builtin : Builtin.isTag i.name)
    (before : List Ident) : Lacks (base.types.map DataType.tag) before i := by
  refine .inl fun present => ?_
  obtain ⟨t, ht, tag⟩ := List.mem_map.1 present
  exact h.not_isTag ht (tag ▸ builtin)

theorem toDomain_error_iff_offends (h : base.Lawful)
    (found : Domain.find? ds p.base = some base) (single : (p.sums.map SumChange.tag).Nodup) :
    p.toDomain ds = .error e ↔ p.Offends base e := by
  rw [toDomain_error found, alterTypes_error, excluded_error h]
  simp only [excluded_ok h, and_assoc, exists_and_left, exists_eq_left',
    SumChange.foldlM_apply_error (ordinary_left (p := p) h) single]
  constructor
  · rintro (⟨before, i, after, split, takes, lacks, rfl⟩ |
      ⟨takes, before, c, after, split, fits, fails⟩)
    · by_cases builtin : Builtin.isTag i.name
      · rw [Ident.kept, if_pos builtin]
        exact .builtin split takes builtin
      · rw [Ident.kept, if_neg builtin]
        exact .excluded split takes builtin lacks
    · exact .sum takes split fits fails
  · intro offends
    cases offends with
    | @builtin before i after split takes builtin =>
      exact .inl ⟨before, i, after, split, takes, lacks_of_builtin h builtin before,
        by rw [Ident.kept, if_pos builtin]⟩
    | @excluded before i after split takes own lacks =>
      exact .inl ⟨before, i, after, split, takes, lacks, by rw [Ident.kept, if_neg own]⟩
    | @sum before c after _ takes split fits fails =>
      exact .inr ⟨takes, before, c, after, split, fits, fails⟩

/-- **The outcome of a permutation.** It goes through exactly if all that it leaves out and
removes is there, and leaves the rest as it was. Otherwise the first name at fault is blamed. -/
theorem toDomain_exact (found : Domain.find? ds p.base = some base) (check : base.check = .ok ())
    (single : (p.sums.map SumChange.tag).Nodup) :
    (∀ d, p.toDomain ds = .ok d ↔ p.Sound base ∧ p.outcome base = d) ∧
    ∀ e, p.toDomain ds = .error e ↔ p.Offends base e := by
  have lawful := Domain.lawful_of_check check
  exact ⟨fun _ => toDomain_ok_iff_sound lawful found single,
    fun _ => toDomain_error_iff_offends lawful found single⟩

end Permutation

/-! ## A sum of three letters -/

/-- Two tuples, and a sum of the variants `a`, `b` and `c`. -/
def letters : Domain :=
  ⟨"base", [.tuple (.empty "keep"), .tuple (.empty "drop"),
    .sum ⟨"s", [.empty "a", .empty "b", .empty "c"], false, .unknown⟩], .unknown⟩

/-- Leaves `drop` out, and puts `d` and `e` in the place of some letters. -/
def reletter (removed : List Ident) : Permutation :=
  ⟨"derived", "base", [⟨"drop", .unknown⟩], [.tuple (.empty "added")],
    [⟨"s", removed, [.empty "d", .empty "e"], .unknown⟩], ⟨none, 2, 1⟩⟩

/-- One letter can be removed, but no letter twice. -/
theorem Permutation.toDomain_exact_letters :
    (reletter [⟨"a", .unknown⟩]).toDomain [letters] =
      .ok ⟨"derived", [.tuple (.empty "keep"), .sum ⟨"s", [.empty "b", .empty "c", .empty "d",
        .empty "e"], false, .unknown⟩, .tuple (.empty "added")], ⟨none, 2, 1⟩⟩ ∧
    (reletter [⟨"a", .unknown⟩]).Sound letters ∧
    (reletter [⟨"b", ⟨none, 2, 8⟩⟩, ⟨"a", ⟨none, 2, 10⟩⟩, ⟨"b", ⟨none, 2, 12⟩⟩]).Offends letters
      ⟨.variantMissing "s" "b", ⟨none, 2, 12⟩⟩ := by
  have found (removed : List Ident) :
      Domain.find? [letters] (reletter removed).base = some letters := rfl
  have once := toDomain_exact (found [⟨"a", .unknown⟩]) (by decide) (by decide)
  have twice := toDomain_exact (found [⟨"b", ⟨none, 2, 8⟩⟩, ⟨"a", ⟨none, 2, 10⟩⟩,
    ⟨"b", ⟨none, 2, 12⟩⟩]) (by decide) (by decide)
  have made : (reletter [⟨"a", .unknown⟩]).toDomain [letters] = .ok _ := rfl
  exact ⟨made, ((once.1 _).1 made).1, (twice.2 _).1 rfl⟩

end TypeDomains
