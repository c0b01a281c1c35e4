import Mathlib.Data.Multiset.Defs
import TypeDomains.Proofs.Flags

/-!
# Domains that cover others

A domain is covered by another if the transform to the other drops none of its types and flags
none. On domains within the rules this is an order, and two of them cover each other exactly if
their types differ at most in flags, in locations and in order, of the types as of the variants in
them (`Domain.coveredBy_order`).
-/

namespace TypeDomains

/-- A type without flags, locations and the order of its variants. -/
inductive Outline where
  | builtin (b : Builtin)
  | tuple (t : Tuple)
  | sum (tag : String) (variants : Multiset Tuple)

def Outline.tag : Outline → String
  | builtin b => b.tag
  | tuple t => t.tag
  | sum tag _ => tag

def DataType.outline : DataType → Outline
  | builtin b => .builtin b
  | tuple t => .tuple t.shape
  | sum s => .sum s.tag (s.variants.map Tuple.shape)

/-- The types of a domain without flags, locations and all order. -/
def Domain.outline (d : Domain) : Multiset Outline := d.types.map DataType.outline

/-- The difference to `b` drops no type of `a`, and flags none. -/
def Domain.CoveredBy (a b : Domain) : Prop :=
  (a.differenceFrom b).types.map DataType.tag = a.types.map DataType.tag ∧
    ∀ w ∈ (a.differenceFrom b).types, w.different = false

instance (a b : Domain) : Decidable (a.CoveredBy b) := inferInstanceAs (Decidable (_ ∧ _))

/-! ## Types -/

/-- A tuple is covered by one of its shape, a sum by one that has all its variants. -/
inductive DataType.CoveredBy : DataType → DataType → Prop where
  | tuple {t u : Tuple} : t.shape = u.shape → CoveredBy (.tuple t) (.tuple u)
  | sum {s r : Sum} : s.tag = r.tag → (∀ v ∈ s.variants, ∃ u ∈ r.variants, v.shape = u.shape) →
    CoveredBy (.sum s) (.sum r)

theorem nodup_shapes {vs : List Tuple} (h : (vs.map Tuple.tag).Nodup) :
    (vs.map Tuple.shape).Nodup := by
  refine List.Nodup.of_map Tuple.tag ?_
  rwa [List.map_map]

namespace DataType

variable {t u w : DataType}

theorem tag_outline (t : DataType) : t.outline.tag = t.tag := by
  cases t <;> rfl

theorem CoveredBy.tag_eq (h : t.CoveredBy u) : u.tag = t.tag := by
  cases h with
  | tuple shapes => exact (congrArg Tuple.tag shapes).symm
  | sum tags => exact tags.symm

theorem CoveredBy.refl (h : t.Meets t) : t.CoveredBy t := by
  cases h with
  | tuples => exact .tuple rfl
  | sums => exact .sum rfl fun v hv => ⟨v, hv, rfl⟩

theorem CoveredBy.trans (h : t.CoveredBy u) (h' : u.CoveredBy w) : t.CoveredBy w := by
  cases h with
  | tuple shapes =>
    cases h' with
    | tuple shapes' => exact .tuple (shapes.trans shapes')
  | sum tags variants =>
    cases h' with
    | sum tags' variants' =>
      refine .sum (tags.trans tags') fun v hv => ?_
      obtain ⟨u, hu, same⟩ := variants v hv
      obtain ⟨w, hw, same'⟩ := variants' u hu
      exact ⟨w, hw, same.trans same'⟩

theorem CoveredBy.antisymm (h : t.CoveredBy u) (h' : u.CoveredBy t)
    (ht : ∀ s, t = .sum s → (s.variants.map Tuple.tag).Nodup)
    (hu : ∀ s, u = .sum s → (s.variants.map Tuple.tag).Nodup) : t.outline = u.outline := by
  cases h with
  | tuple shapes => exact congrArg Outline.tuple shapes
  | @sum s r tags variants =>
    cases h' with
    | sum _ variants' =>
      have same : (s.variants.map Tuple.shape : Multiset Tuple) = r.variants.map Tuple.shape := by
        refine (Multiset.Nodup.ext (Multiset.coe_nodup.2 (nodup_shapes (ht s rfl)))
          (Multiset.coe_nodup.2 (nodup_shapes (hu r rfl)))).2 fun x => ?_
        simp only [Multiset.mem_coe, List.mem_map]
        constructor
        · rintro ⟨v, hv, rfl⟩
          obtain ⟨u, hu, same⟩ := variants v hv
          exact ⟨u, hu, same.symm⟩
        · rintro ⟨v, hv, rfl⟩
          obtain ⟨u, hu, same⟩ := variants' v hv
          exact ⟨u, hu, same.symm⟩
      rw [outline, outline, tags, same]

theorem CoveredBy.of_outline (meets : t.Meets u) (h : t.outline = u.outline) :
    t.CoveredBy u := by
  cases meets with
  | tuples => exact .tuple (Outline.tuple.inj h)
  | @sums s r =>
    obtain ⟨tags, variants⟩ := Outline.sum.inj h
    refine .sum tags fun v hv => ?_
    have there : v.shape ∈ (r.variants.map Tuple.shape : Multiset Tuple) :=
      variants ▸ List.mem_map_of_mem hv
    obtain ⟨u, hu, same⟩ := List.mem_map.1 there
    exact ⟨u, hu, same.symm⟩
  | tupleForSum | sumForTuple => simp [outline] at h

end DataType

/-! ## Domains -/

namespace Domain

variable {a b c : Domain}

/-- A type is shown without a flag where it is covered. -/
theorem unflagged_iff (ha : a.Lawful) (hb : b.Lawful) {t u : DataType} (ht : t ∈ a.types)
    (hu : u ∈ b.types) (tags : u.tag = t.tag) :
    (t.differenceFrom u).different = false ↔ t.CoveredBy u := by
  cases ha.meets hb ht hu with
  | @tuples t u =>
    have shapes : ((DataType.tuple t).differenceFrom (.tuple u)).different = false ↔
        t.shape = u.shape := by
      rw [← Tuple.sameShape_iff]
      simp [DataType.differenceFrom, DataType.different, Tuple.differenceFrom, Tuple.flag]
    rw [shapes]
    refine ⟨.tuple, fun covered => ?_⟩
    cases covered with
    | tuple same => exact same
  | @sums s r =>
    have variants : ((DataType.sum s).differenceFrom (.sum r)).different = false ↔
        ∀ v ∈ s.variants, ∃ u ∈ r.variants, v.shape = u.shape := by
      simp only [DataType.differenceFrom, DataType.different, Sum.differenceFrom,
        List.any_eq_false, List.forall_mem_map, Sum.different_variant (hb.nodup_variants hu),
        not_not, Tuple.sameShape_iff]
    rw [variants]
    refine ⟨.sum tags.symm, fun covered => ?_⟩
    cases covered with
    | sum _ all => exact all
  | tupleForSum | sumForTuple =>
    refine iff_of_false (fun unflagged => ?_) (fun covered => ?_)
    · cases unflagged
    · cases covered

theorem coveredBy_iff (ha : a.Lawful) (hb : b.Lawful) :
    a.CoveredBy b ↔ ∀ t ∈ a.types, ∃ u ∈ b.types, t.CoveredBy u := by
  have shown := compares_of_lawful ha hb
  rw [CoveredBy, shown.map_tag, List.filter_eq_self]
  constructor
  · rintro ⟨tags, unflagged⟩ t ht
    obtain ⟨u, hu, tag⟩ := List.mem_map.1 (of_decide_eq_true (tags _ (List.mem_map_of_mem ht)))
    refine ⟨u, hu, (unflagged_iff ha hb ht hu tag).1 ?_⟩
    exact unflagged _ ((mem_differenceFrom hb).2 ⟨t, ht, u, hu, tag, rfl⟩)
  · intro covered
    refine ⟨fun tag htag => decide_eq_true ?_, fun w hw => ?_⟩
    · obtain ⟨t, ht, rfl⟩ := List.mem_map.1 htag
      obtain ⟨u, hu, cover⟩ := covered t ht
      exact List.mem_map.2 ⟨u, hu, cover.tag_eq⟩
    · obtain ⟨t, ht, u, hu, tags, rfl⟩ := (mem_differenceFrom hb).1 hw
      obtain ⟨u', hu', cover⟩ := covered t ht
      obtain rfl := hb.eq_of_tag hu hu' (tags.trans cover.tag_eq.symm)
      exact (unflagged_iff ha hb ht hu tags).2 cover

theorem CoveredBy.refl (ha : a.Lawful) : a.CoveredBy a :=
  (coveredBy_iff ha ha).2 fun t ht => ⟨t, ht, .refl (ha.meets ha ht ht)⟩

theorem CoveredBy.trans (ha : a.Lawful) (hb : b.Lawful) (hc : c.Lawful) (h : a.CoveredBy b)
    (h' : b.CoveredBy c) : a.CoveredBy c := by
  refine (coveredBy_iff ha hc).2 fun t ht => ?_
  obtain ⟨u, hu, cover⟩ := (coveredBy_iff ha hb).1 h t ht
  obtain ⟨w, hw, cover'⟩ := (coveredBy_iff hb hc).1 h' u hu
  exact ⟨w, hw, cover.trans cover'⟩

theorem CoveredBy.of_outline (ha : a.Lawful) (hb : b.Lawful) (h : a.outline = b.outline) :
    a.CoveredBy b := by
  refine (coveredBy_iff ha hb).2 fun t ht => ?_
  have there : t.outline ∈ b.outline := h ▸ List.mem_map_of_mem ht
  obtain ⟨u, hu, same⟩ := List.mem_map.1 there
  exact ⟨u, hu, .of_outline (ha.meets hb ht hu) same.symm⟩

theorem nodup_outline (ha : a.Lawful) : a.outline.Nodup := by
  refine Multiset.coe_nodup.2 (List.Nodup.of_map Outline.tag ?_)
  have tags : Outline.tag ∘ DataType.outline = DataType.tag := funext DataType.tag_outline
  rw [List.map_map, tags]
  exact ha.nodup_tags

/-- A type of one of two domains that cover each other is in the other one too. -/
theorem mem_outline (ha : a.Lawful) (hb : b.Lawful) (h : a.CoveredBy b) (h' : b.CoveredBy a)
    {x : Outline} (hx : x ∈ a.outline) : x ∈ b.outline := by
  obtain ⟨t, ht, rfl⟩ := List.mem_map.1 hx
  obtain ⟨u, hu, cover⟩ := (coveredBy_iff ha hb).1 h t ht
  obtain ⟨t', ht', cover'⟩ := (coveredBy_iff hb ha).1 h' u hu
  obtain rfl := ha.eq_of_tag ht' ht (cover'.tag_eq.trans cover.tag_eq)
  have same : t'.outline = u.outline := cover.antisymm cover'
    (fun s hs => ha.nodup_variants (hs ▸ ht)) fun s hs => hb.nodup_variants (hs ▸ hu)
  exact same ▸ List.mem_map_of_mem hu

/-- **The order of domains.** Covering is reflexive and transitive, and two domains cover each
other exactly if they have the same types up to flags, locations and order. -/
theorem coveredBy_order (ha : a.check = .ok ()) (hb : b.check = .ok ()) (hc : c.check = .ok ()) :
    a.CoveredBy a ∧ (a.CoveredBy b → b.CoveredBy c → a.CoveredBy c) ∧
      (a.CoveredBy b ∧ b.CoveredBy a ↔ a.outline = b.outline) := by
  have ha := lawful_of_check ha
  have hb := lawful_of_check hb
  refine ⟨.refl ha, .trans ha hb (lawful_of_check hc), ?_, fun same => ?_⟩
  · rintro ⟨h, h'⟩
    exact ((nodup_outline ha).ext (nodup_outline hb)).2 fun x =>
      ⟨mem_outline ha hb h h', mem_outline hb ha h' h⟩
  · exact ⟨.of_outline ha hb same, .of_outline hb ha same.symm⟩

end Domain

/-! ## Three domains -/

/-- A sum of one variant. -/
def narrow : Domain := ⟨"a", [.sum (.single "s" "v")], .unknown⟩

/-- A tuple, and the sum with another variant in front. -/
def wide : Domain :=
  ⟨"b", [.tuple (.empty "t"), .sum ⟨"s", [.empty "w", .empty "v"], false, .unknown⟩], .unknown⟩

/-- The types and variants of `wide` in another order, and with a flag. -/
def turned : Domain :=
  ⟨"c", [.sum ⟨"s", [.empty "v", .empty "w"], false, .unknown⟩,
    .tuple ((Tuple.empty "t").flag true)], .unknown⟩

/-- The narrow domain is covered by both of the others, which are the same up to order. -/
theorem Domain.coveredBy_order_turned :
    narrow.CoveredBy turned ∧ ¬wide.CoveredBy narrow ∧ wide.outline = turned.outline ∧
      narrow.outline ≠ turned.outline := by
  obtain ⟨-, through, -⟩ := coveredBy_order (a := narrow) (b := wide) (c := turned)
    (by decide) (by decide) (by decide)
  obtain ⟨-, -, order⟩ := coveredBy_order (a := wide) (b := turned) (c := wide)
    (by decide) (by decide) (by decide)
  obtain ⟨-, -, apart⟩ := coveredBy_order (a := narrow) (b := turned) (c := wide)
    (by decide) (by decide) (by decide)
  exact ⟨through (by decide) (by decide), by decide, order.1 (by decide), apart.not.1 (by decide)⟩

end TypeDomains
