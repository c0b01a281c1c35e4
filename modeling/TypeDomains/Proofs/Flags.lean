import TypeDomains.Proofs.Shapes

/-!
# The flags of a difference

A difference holds the types of its source that the destination has too, with flags that only
shapes decide; where one side has a sum and the other a tuple it holds the destination's type
(`Domain.differenceFrom_iff_compares`). So the difference taken again is the same one, but for
types that were exchanged in this way: they are now alike (`Domain.differenceFrom_again_iff`).
-/

namespace TypeDomains

/-! ## Two types that meet -/

/-- Two types, both of them tuples or sums. -/
inductive DataType.Meets : DataType → DataType → Prop where
  | tuples {t u : Tuple} : Meets (.tuple t) (.tuple u)
  | sums {s r : Sum} : Meets (.sum s) (.sum r)
  | tupleForSum {s : Sum} {u : Tuple} : Meets (.sum s) (.tuple u)
  | sumForTuple {t : Tuple} {r : Sum} : Meets (.tuple t) (.sum r)

/-- No other types than tuples and sums are listed by domains within the rules. -/
theorem Domain.Lawful.meets {a b : Domain} (ha : a.Lawful) (hb : b.Lawful) {t u : DataType}
    (ht : t ∈ a.types) (hu : u ∈ b.types) : t.Meets u := by
  cases t with
  | builtin c => exact absurd ht (ha.not_builtin c)
  | tuple t =>
    cases u with
    | builtin c => exact absurd hu (hb.not_builtin c)
    | tuple u => exact .tuples
    | sum r => exact .sumForTuple
  | sum s =>
    cases u with
    | builtin c => exact absurd hu (hb.not_builtin c)
    | tuple u => exact .tupleForSum
    | sum r => exact .sums

/-! ## What a difference shows -/

/-- How a variant is shown against a sum: up to its flag as it is, and flagged unless the sum has
the same variant. -/
def Sum.Compares (r : Sum) (v w : Tuple) : Prop :=
  w = v.flag w.different ∧ (w.different ↔ ∀ u ∈ r.variants, u.tag = v.tag → v.DiffersFrom u)

/-- `t.Compares u w` if `w` is how the type `t` is shown against the type `u`. -/
inductive DataType.Compares : DataType → DataType → DataType → Prop where
  | tuple {t u : Tuple} {different : Bool} : (different ↔ t.DiffersFrom u) →
    Compares (.tuple t) (.tuple u) (.tuple (t.flag different))
  | sum {s r : Sum} {vs : List Tuple} {different : Bool} :
    List.Forall₂ r.Compares s.variants vs → (different ↔ ∃ v ∈ vs, v.different) →
    Compares (.sum s) (.sum r) (.sum { s with variants := vs, different := different })
  | tupleForSum {s : Sum} {u : Tuple} : Compares (.sum s) (.tuple u) (.tuple (u.flag true))
  | sumForTuple {t : Tuple} {r : Sum} :
    Compares (.tuple t) (.sum r) (.sum { r with different := true })

/-- `a.Compares b d` if `d` shows, for each type of `a` that `b` has too, the one against the
other. -/
structure Domain.Compares (a b d : Domain) : Prop where
  tag : d.tag = a.tag
  location : d.location = a.location
  types : List.Forall₂ (fun t w => ∃ u ∈ b.types, u.tag = t.tag ∧ t.Compares u w)
    (a.types.filter fun t => t.tag ∈ b.types.map DataType.tag) d.types

theorem Sum.compares_differenceFrom {r : Sum} (h : (r.variants.map Tuple.tag).Nodup) (v : Tuple) :
    r.Compares v (v.differenceFrom (r.variant? v.tag)) := by
  refine ⟨rfl, (Sum.different_variant h v).trans ?_⟩
  simp only [Tuple.sameShape_iff_differsFrom, not_exists, not_and, not_not]

namespace DataType

variable {t u w w' : DataType}

theorem Compares.tag_eq (h : t.Compares u w) (tags : u.tag = t.tag) : w.tag = t.tag := by
  cases h with
  | tuple | sum => rfl
  | tupleForSum | sumForTuple => exact tags

theorem Compares.unique (h : t.Compares u w) (h' : t.Compares u w') : w = w' := by
  cases h with
  | tuple flag =>
    cases h' with
    | tuple flag' => rw [Bool.eq_iff_iff.2 (flag.trans flag'.symm)]
  | @sum s r vs _ variants flag =>
    cases h' with
    | @sum _ _ vs' _ variants' flag' =>
      have functional : Relator.RightUnique r.Compares := by
        intro v w w' h h'
        rw [h.1, h'.1, Bool.eq_iff_iff.2 (h.2.trans h'.2.symm)]
      obtain rfl : vs = vs' := List.right_unique_forall₂' functional variants variants'
      rw [Bool.eq_iff_iff.2 (flag.trans flag'.symm)]
  | tupleForSum => cases h'; rfl
  | sumForTuple => cases h'; rfl

end DataType

namespace Domain

variable {a b : Domain} {t u : DataType}

theorem compares_differenceFrom (ha : a.Lawful) (hb : b.Lawful) (ht : t ∈ a.types)
    (hu : u ∈ b.types) (tags : u.tag = t.tag) : t.Compares u (t.differenceFrom u) := by
  cases ha.meets hb ht hu with
  | tuples => exact .tuple (Tuple.different_differenceFrom tags)
  | sums =>
    refine .sum (List.forall₂_map_right_iff.2 (List.forall₂_same.2 fun v _ => ?_)) List.any_eq_true
    exact Sum.compares_differenceFrom (hb.nodup_variants hu) v
  | tupleForSum => exact .tupleForSum
  | sumForTuple => exact .sumForTuple

end Domain

/-! ## Flags that were set before -/

/-- The domain with no flag set. -/
def Domain.unflagged (d : Domain) : Domain := { d with types := d.types.map DataType.unflagged }

namespace DataType

theorem tag_unflagged (t : DataType) : t.unflagged.tag = t.tag := by
  cases t <;> rfl

theorem different_unflagged (t : DataType) : t.unflagged.different = false := by
  cases t <;> rfl

theorem different_unlocated (t : DataType) : t.unlocated.different = t.different := by
  cases t <;> rfl

theorem differenceFrom_unflagged (t : DataType) :
    t.unflagged.differenceFrom = t.differenceFrom := by
  funext u
  cases t with
  | builtin b | tuple t => cases u <;> rfl
  | sum s =>
    cases u with
    | builtin b | tuple u => rfl
    | sum r =>
      simp only [differenceFrom, Sum.differenceFrom, unflagged, List.map_map]
      rfl

end DataType

theorem Domain.differenceFrom_unflagged (a b : Domain) :
    a.unflagged.differenceFrom b = a.differenceFrom b := by
  simp only [differenceFrom, unflagged, List.filterMap_map, Function.comp_def,
    DataType.tag_unflagged, DataType.differenceFrom_unflagged]

namespace Domain

variable {a b : Domain}

/-- Of the types of `a`, those that `b` has too are in the difference, each in its place. -/
theorem types_differenceFrom (hb : b.Lawful) {R : DataType → DataType → Prop}
    (shown : ∀ t ∈ a.types, ∀ u ∈ b.types, u.tag = t.tag → R t (t.differenceFrom u)) :
    List.Forall₂ R (a.types.filter fun t => t.tag ∈ b.types.map DataType.tag)
      (a.differenceFrom b).types := by
  refine forall₂_filterMap (fun t ht both => ?_) (fun t _ missing => ?_)
  · obtain ⟨u, hu, tags⟩ : ∃ u ∈ b.types, u.tag = t.tag := by simpa using both
    refine ⟨t.differenceFrom u, ?_, shown t ht u hu tags⟩
    rw [(find?_iff_of_nodup hb.nodup_tags).2 ⟨hu, tags⟩, Option.map_some]
  · have absent : ∀ u ∈ b.types, u.tag ≠ t.tag := by simpa using missing
    rw [Option.map_eq_none_iff, List.find?_eq_none]
    simpa using absent

theorem compares_of_lawful (ha : a.Lawful) (hb : b.Lawful) : a.Compares b (a.differenceFrom b) where
  tag := rfl
  location := rfl
  types := types_differenceFrom hb fun _ ht u hu tags =>
    ⟨u, hu, tags, compares_differenceFrom ha hb ht hu tags⟩

theorem Compares.unique (hb : b.Lawful) {d d' : Domain} (h : a.Compares b d)
    (h' : a.Compares b d') : d = d' := by
  have functional : Relator.RightUnique fun (t w : DataType) =>
      ∃ u ∈ b.types, u.tag = t.tag ∧ t.Compares u w := by
    rintro t w w' ⟨u, hu, tags, h⟩ ⟨u', hu', tags', h'⟩
    obtain rfl := hb.eq_of_tag hu hu' (tags.trans tags'.symm)
    exact h.unique h'
  have tag : d.tag = d'.tag := h.tag.trans h'.tag.symm
  have types : d.types = d'.types := List.right_unique_forall₂' functional h.types h'.types
  have location : d.location = d'.location := h.location.trans h'.location.symm
  cases d
  cases d'
  rw [Domain.mk.injEq]
  exact ⟨tag, types, location⟩

theorem Compares.map_tag {d : Domain} (h : a.Compares b d) : d.types.map DataType.tag =
    (a.types.map DataType.tag).filter fun tag => tag ∈ b.types.map DataType.tag := by
  have tags : (a.types.filter fun t => t.tag ∈ b.types.map DataType.tag).map DataType.tag =
      d.types.map DataType.tag :=
    map_eq_map_iff_forall₂.2 (h.types.imp fun _ _ ⟨_, _, same, shown⟩ => (shown.tag_eq same).symm)
  rw [← tags, List.filter_map]
  rfl

/-- **What a difference is.** For each type of the source that the destination has too, in the
order of the source, it has the one shown against the other. The flags of the source play no
part. -/
theorem differenceFrom_iff_compares (ha : a.check = .ok ()) (hb : b.check = .ok ()) :
    (∀ d, a.differenceFrom b = d ↔ a.Compares b d) ∧
    ((a.differenceFrom b).types.map DataType.tag).Nodup ∧
    (a.differenceFrom b).types.map DataType.tag =
      (a.types.map DataType.tag).filter (· ∈ b.types.map DataType.tag) ∧
    ∀ c : Domain, c.unflagged = a.unflagged → c.differenceFrom b = a.differenceFrom b := by
  have compared := compares_of_lawful (lawful_of_check ha) (lawful_of_check hb)
  refine ⟨fun d => ⟨?_, compared.unique (lawful_of_check hb)⟩, ?_, compared.map_tag, ?_⟩
  · rintro rfl
    exact compared
  · rw [compared.map_tag]
    exact (lawful_of_check ha).nodup_tags.filter _
  · intro c same
    rw [← differenceFrom_unflagged c, same, differenceFrom_unflagged]

end Domain

/-- A flagged tuple, a sum of two variants, and two more tuples. -/
def earlier : Domain :=
  ⟨"a", [.tuple ((Tuple.empty "t").flag true), .sum ⟨"s", [.empty "v", .empty "w"], false, .unknown⟩,
    .tuple (.empty "u"), .tuple (.empty "x")], .unknown⟩

/-- The sum has lost a variant, `u` has become a sum, and `x` is gone. -/
def later : Domain :=
  ⟨"b", [.sum (.single "u" "y"), .sum ⟨"s", [.empty "w"], false, .unknown⟩, .tuple (.empty "t")],
    .unknown⟩

/-- What of `earlier` is still in `later`. -/
def remaining : Domain :=
  ⟨"a", [.tuple (.empty "t"), .sum ⟨"s", [(Tuple.empty "v").flag true, .empty "w"], true, .unknown⟩,
    .sum { Sum.single "u" "y" with different := true }], .unknown⟩

/-- The flag of `t` is taken back. -/
theorem Domain.differenceFrom_iff_compares_later :
    earlier.Compares later remaining ∧ earlier.unflagged.differenceFrom later = remaining := by
  obtain ⟨compares, -, -, unflagged⟩ :=
    differenceFrom_iff_compares (a := earlier) (b := later) (by decide) (by decide)
  have shown : earlier.differenceFrom later = remaining := by decide
  exact ⟨(compares remaining).1 shown, (unflagged _ (by decide)).trans shown⟩

/-! ## The difference taken again -/

namespace DataType

variable {t u : DataType}

theorem unflagged_asDifferent (u : DataType) : u.asDifferent.unflagged = u.unflagged := by
  cases u <;> rfl

/-- A type compared with itself is shown without flags. -/
theorem differenceFrom_self (h : ∀ s, u = .sum s → (s.variants.map Tuple.tag).Nodup) :
    u.differenceFrom u = u.unflagged := by
  cases u with
  | builtin b => rfl
  | tuple u => simp [differenceFrom, unflagged, Tuple.differenceFrom, Tuple.sameShape_self]
  | sum s =>
    have alike : ∀ v ∈ s.variants, v.differenceFrom (s.variant? v.tag) = v.flag false := by
      intro v hv
      have same : ¬(v.differenceFrom (s.variant? v.tag)).different := by
        rw [Sum.different_variant (h s rfl), not_not]
        exact ⟨v, hv, v.sameShape_self⟩
      exact congrArg v.flag (Bool.eq_false_iff.2 same)
    simp [differenceFrom, Sum.differenceFrom, unflagged, List.map_congr_left alike, Tuple.flag]

/-- A type that is shown against one of its kind is shown in the same way again. -/
theorem differenceFrom_again (h : t.sameKind u) :
    (t.differenceFrom u).differenceFrom u = t.differenceFrom u := by
  rw [← differenceFrom_unflagged (t.differenceFrom u), unflagged_differenceFrom h,
    differenceFrom_unflagged]

end DataType

namespace Domain

variable {a b : Domain}

/-- The tag is that of a sum in one of the domains and of a tuple in the other. -/
def Exchanges (a b : Domain) (tag : String) : Prop :=
  ∃ (s : Sum) (t : Tuple), s.tag = tag ∧ t.tag = tag ∧
    (.sum s ∈ a.types ∧ .tuple t ∈ b.types ∨ .tuple t ∈ a.types ∧ .sum s ∈ b.types)

theorem exchanges_iff (ha : a.Lawful) (hb : b.Lawful) {t u : DataType} (ht : t ∈ a.types)
    (hu : u ∈ b.types) (tags : u.tag = t.tag) : a.Exchanges b t.tag ↔ ¬t.sameKind u := by
  constructor
  · rintro ⟨s, r, hs, hr, ⟨left, right⟩ | ⟨left, right⟩⟩
    · obtain rfl := ha.eq_of_tag ht left hs.symm
      obtain rfl := hb.eq_of_tag hu right (tags.trans hr.symm)
      simp [DataType.sameKind]
    · obtain rfl := ha.eq_of_tag ht left hr.symm
      obtain rfl := hb.eq_of_tag hu right (tags.trans hs.symm)
      simp [DataType.sameKind]
  · intro kinds
    cases ha.meets hb ht hu with
    | tuples | sums => simp [DataType.sameKind] at kinds
    | @tupleForSum s u => exact ⟨s, u, rfl, tags, .inl ⟨ht, hu⟩⟩
    | @sumForTuple t r => exact ⟨r, t, tags, rfl, .inr ⟨ht, hu⟩⟩

/-- How a type `w` of the difference is shown once more: a type that was exchanged is flagged at
first and has no flag then, all others stay as they are. -/
def ShownAgain (a b : Domain) (w w' : DataType) : Prop :=
  (a.Exchanges b w.tag → w.different ∧ w' = w.unflagged) ∧ (¬a.Exchanges b w.tag → w' = w)

theorem shownAgain (ha : a.Lawful) (hb : b.Lawful) {t u : DataType} (ht : t ∈ a.types)
    (hu : u ∈ b.types) (tags : u.tag = t.tag) :
    a.ShownAgain b (t.differenceFrom u) ((t.differenceFrom u).differenceFrom u) := by
  rw [ShownAgain, (compares_differenceFrom ha hb ht hu tags).tag_eq tags,
    exchanges_iff ha hb ht hu tags, not_not]
  refine ⟨fun kinds => ?_, DataType.differenceFrom_again⟩
  have once : u.asDifferent.differenceFrom u = u.unflagged := by
    rw [← DataType.differenceFrom_unflagged, DataType.unflagged_asDifferent,
      DataType.differenceFrom_unflagged]
    exact DataType.differenceFrom_self fun s hs => hb.nodup_variants (hs ▸ hu)
  rw [DataType.differenceFrom_of_not_sameKind kinds, once, DataType.unflagged_asDifferent]
  cases ha.meets hb ht hu <;> exact ⟨rfl, rfl⟩

theorem forall₂_shownAgain (ha : a.Lawful) (hb : b.Lawful) :
    List.Forall₂ (a.ShownAgain b) (a.differenceFrom b).types
      ((a.differenceFrom b).differenceFrom b).types := by
  have known : ∀ w ∈ (a.differenceFrom b).types, ∃ t ∈ a.types, ∃ u ∈ b.types,
      u.tag = w.tag ∧ u.tag = t.tag ∧ t.differenceFrom u = w := by
    intro w hw
    obtain ⟨t, ht, u, hu, tags, rfl⟩ := (mem_differenceFrom hb).1 hw
    have tag := (compares_differenceFrom ha hb ht hu tags).tag_eq tags
    exact ⟨t, ht, u, hu, tags.trans tag.symm, tags, rfl⟩
  -- So the second comparison drops none of them.
  have all : (a.differenceFrom b).types.filter (fun w => w.tag ∈ b.types.map DataType.tag) =
      (a.differenceFrom b).types := by
    refine List.filter_eq_self.2 fun w hw => decide_eq_true ?_
    obtain ⟨_, _, u, hu, tag, -, -⟩ := known w hw
    exact List.mem_map.2 ⟨u, hu, tag⟩
  rw [← all]
  refine types_differenceFrom hb fun w hw u hu tag => ?_
  obtain ⟨t, ht, u', hu', tag', tags, rfl⟩ := known w hw
  obtain rfl := hb.eq_of_tag hu hu' (tag.trans tag'.symm)
  exact shownAgain ha hb ht hu tags

theorem exists_of_exchanges (ha : a.Lawful) (hb : b.Lawful) {tag : String}
    (h : a.Exchanges b tag) : ∃ w ∈ (a.differenceFrom b).types, w.tag = tag := by
  have shown {t u : DataType} (ht : t ∈ a.types) (hu : u ∈ b.types) (htag : t.tag = tag)
      (utag : u.tag = tag) : ∃ w ∈ (a.differenceFrom b).types, w.tag = tag := by
    have tags : u.tag = t.tag := utag.trans htag.symm
    exact ⟨_, (mem_differenceFrom hb).2 ⟨t, ht, u, hu, tags, rfl⟩,
      ((compares_differenceFrom ha hb ht hu tags).tag_eq tags).trans htag⟩
  obtain ⟨s, t, hs, ht, ⟨left, right⟩ | ⟨left, right⟩⟩ := h
  · exact shown left right hs ht
  · exact shown left right ht hs

theorem differenceFrom_again (ha : a.Lawful) (hb : b.Lawful) (none : ∀ tag, ¬a.Exchanges b tag) :
    (a.differenceFrom b).differenceFrom b = a.differenceFrom b := by
  have types : List.Forall₂ (· = ·) (a.differenceFrom b).types
      ((a.differenceFrom b).differenceFrom b).types :=
    (forall₂_shownAgain ha hb).imp fun w _ again => (again.2 (none w.tag)).symm
  rw [List.forall₂_eq_eq_eq] at types
  exact congrArg (fun ts => { a with types := ts }) types.symm

theorem not_exchanges_of_same (ha : a.Lawful) (hb : b.Lawful)
    (same : ((a.differenceFrom b).differenceFrom b).same (a.differenceFrom b)) (tag : String) :
    ¬a.Exchanges b tag := by
  intro exchanged
  obtain ⟨w, hw, rfl⟩ := exists_of_exchanges ha hb exchanged
  have alike := map_eq_map_iff_forall₂.1 (congrArg types ((same_iff _ _).1 same)).symm
  have both := List.Forall₂.mp (fun _ _ => And.intro) (forall₂_shownAgain ha hb) alike
  obtain ⟨w', -, again, unlocated⟩ := exists_of_forall₂_left both hw
  obtain ⟨flagged, rfl⟩ := again.1 exchanged
  have flags := congrArg DataType.different unlocated
  rw [DataType.different_unlocated, DataType.different_unlocated, DataType.different_unflagged,
    flagged] at flags
  exact absurd flags (by decide)

/-- **The difference taken again.** It is the same one exactly if no tag is that of a sum on one
side and of a tuple on the other. The types of such a tag are flagged in the first difference and
not in the second, and all others agree. -/
theorem differenceFrom_again_iff (ha : a.check = .ok ()) (hb : b.check = .ok ()) :
    ((a.differenceFrom b).differenceFrom b = a.differenceFrom b ↔ ∀ tag, ¬a.Exchanges b tag) ∧
    (((a.differenceFrom b).differenceFrom b).same (a.differenceFrom b) ↔
      ∀ tag, ¬a.Exchanges b tag) ∧
    (∀ tag, a.Exchanges b tag → tag ∈ (a.differenceFrom b).types.map DataType.tag) ∧
    List.Forall₂ (a.ShownAgain b) (a.differenceFrom b).types
      ((a.differenceFrom b).differenceFrom b).types := by
  have ha := lawful_of_check ha
  have hb := lawful_of_check hb
  have same_of_eq (h : (a.differenceFrom b).differenceFrom b = a.differenceFrom b) :
      ((a.differenceFrom b).differenceFrom b).same (a.differenceFrom b) :=
    (same_iff _ _).2 (congrArg unlocated h)
  refine ⟨⟨fun h => not_exchanges_of_same ha hb (same_of_eq h), differenceFrom_again ha hb⟩,
    ⟨not_exchanges_of_same ha hb, fun none => same_of_eq (differenceFrom_again ha hb none)⟩,
    fun tag exchanged => List.mem_map.2 (exists_of_exchanges ha hb exchanged),
    forall₂_shownAgain ha hb⟩

end Domain

/-- Of what is left of `earlier`, only the sum that came for the tuple `u` is shown otherwise. -/
theorem Domain.differenceFrom_again_iff_later :
    (earlier.differenceFrom later).types.map DataType.different = [false, true, true] ∧
    ((earlier.differenceFrom later).differenceFrom later).types.map DataType.different =
      [false, true, false] ∧
    (∃ tag, earlier.Exchanges later tag) ∧ ∀ tag, ¬earlier.Exchanges earlier tag := by
  have changed := (differenceFrom_again_iff (a := earlier) (b := later) (by decide) (by decide)).1
  have settled := (differenceFrom_again_iff (a := earlier) (b := earlier) (by decide) (by decide)).1
  exact ⟨by decide, by decide, not_forall_not.1 (changed.not.1 (by decide)),
    settled.1 (by decide)⟩

end TypeDomains
