import TypeDomains.Difference
import TypeDomains.Proofs.Pipeline

/-!
# Differences between checked domains

In a domain within the rules a name leads to one type and one variant. So a difference takes each
of its types whole from one of two domains, and its names are distinct unless a sum that stays
meets one that is new in the place of a tuple (`Domain.nodup_names_differenceFrom_iff`).
-/

namespace TypeDomains

/-! ## Names lead to one place -/

theorem DataType.tag_mem_names (t : DataType) : t.tag ∈ t.names :=
  t.tag_sublist_names.subset (List.mem_singleton_self _)

namespace Domain.Lawful

variable {d : Domain}

theorem nodup_tags (h : d.Lawful) : (d.types.map DataType.tag).Nodup :=
  (List.nodup_append.1 h.nodup_typeNames).2.1

theorem nodup_names_types (h : d.Lawful) : (d.types.flatMap DataType.names).Nodup :=
  (List.nodup_append.1 h.names).2.1

theorem nodup_names (h : d.Lawful) {t : DataType} (ht : t ∈ d.types) : t.names.Nodup :=
  (List.nodup_flatMap.1 h.nodup_names_types).1 t ht

theorem nodup_variants (h : d.Lawful) {s : Sum} (hs : .sum s ∈ d.types) :
    (s.variants.map Tuple.tag).Nodup :=
  (List.nodup_cons.1 (h.nodup_names hs)).2

theorem not_builtin (h : d.Lawful) (b : Builtin) : .builtin b ∉ d.types := by
  intro hb
  have disjoint := (List.nodup_append.1 h.names).2.2
  have listed : b.tag ∈ Builtin.all.map Builtin.tag :=
    List.mem_map_of_mem (by cases b <;> decide)
  exact disjoint _ listed _ (List.mem_flatMap.2 ⟨_, hb, List.mem_singleton_self _⟩) rfl

theorem builtin_not_mem_names (h : d.Lawful) {t : DataType} (ht : t ∈ d.types) {n : String}
    (hn : n ∈ Builtin.all.map Builtin.tag) : n ∉ t.names := by
  intro hnt
  exact (List.nodup_append.1 h.names).2.2 n hn n (List.mem_flatMap.2 ⟨t, ht, hnt⟩) rfl

/-- A name belongs to one type. -/
theorem eq_of_mem_names (h : d.Lawful) {t u : DataType} (ht : t ∈ d.types) (hu : u ∈ d.types)
    {n : String} (hnt : n ∈ t.names) (hnu : n ∈ u.names) : t = u :=
  eq_of_nodup_flatMap h.nodup_names_types ht hu hnt hnu

theorem eq_of_tag (h : d.Lawful) {t u : DataType} (ht : t ∈ d.types) (hu : u ∈ d.types)
    (tags : t.tag = u.tag) : t = u :=
  h.eq_of_mem_names ht hu t.tag_mem_names (tags ▸ u.tag_mem_names)

end Domain.Lawful

/-! ## The types of a difference -/

/-- Both are tuples, or both are sums. -/
def DataType.sameKind : DataType → DataType → Bool
  | tuple _, tuple _ => true
  | sum _, sum _ => true
  | _, _ => false

/-- The names of a type of the difference are those of one type that was compared. -/
theorem DataType.names_differenceFrom (t u : DataType) :
    (t.differenceFrom u).names = if t.sameKind u then t.names else u.names := by
  cases t with
  | builtin b => cases u <;> rfl
  | tuple t => cases u <;> rfl
  | sum s =>
    cases u with
    | builtin b | tuple u => rfl
    | sum r =>
      simp only [differenceFrom, Sum.differenceFrom, sameKind, names, List.map_map, ↓reduceIte]
      rfl

namespace Domain

variable {a b : Domain} {w : DataType}

theorem mem_differenceFrom (hb : b.Lawful) : w ∈ (a.differenceFrom b).types ↔
    ∃ t ∈ a.types, ∃ u ∈ b.types, u.tag = t.tag ∧ t.differenceFrom u = w := by
  simp only [differenceFrom, List.mem_filterMap, Option.map_eq_some_iff,
    find?_iff_of_nodup hb.nodup_tags, and_assoc]

/-- A variant of a sum that stays has the tag of a variant of a sum that stands for a tuple. -/
def Clashes (a b : Domain) : Prop :=
  ∃ s s' t u, .sum s ∈ a.types ∧ .sum s' ∈ b.types ∧ s'.tag = s.tag ∧
    .tuple t ∈ a.types ∧ .sum u ∈ b.types ∧ u.tag = t.tag ∧
      ∃ v ∈ s.variants, ∃ w ∈ u.variants, v.tag = w.tag

/-- Apart from a clash, a type kept from one domain and a type taken from the other share no
name. -/
theorem clashes_of_mem_names (ha : a.Lawful) (hb : b.Lawful) {t t' u u' : DataType}
    (ht : t ∈ a.types) (hu : u ∈ b.types) (htu : u.tag = t.tag) (kept : t.sameKind u)
    (ht' : t' ∈ a.types) (hu' : u' ∈ b.types) (htu' : u'.tag = t'.tag)
    (taken : ¬t'.sameKind u') (apart : t ≠ t') {n : String} (hn : n ∈ t.names)
    (hn' : n ∈ u'.names) : a.Clashes b := by
  have notTag : n ≠ t.tag := by
    rintro rfl
    have same : u' = u := hb.eq_of_mem_names hu' hu hn' (htu ▸ u.tag_mem_names)
    exact apart (ha.eq_of_tag ht ht' (by rw [← htu, ← htu', same]))
  have notTag' : n ≠ u'.tag := by
    rintro rfl
    exact apart (ha.eq_of_mem_names ht ht' hn (htu' ▸ t'.tag_mem_names))
  cases t with
  | builtin c => exact absurd ht (ha.not_builtin c)
  | tuple t => exact absurd (List.mem_singleton.1 hn) notTag
  | sum s =>
    cases u' with
    | builtin c => exact absurd hu' (hb.not_builtin c)
    | tuple u => exact absurd (List.mem_singleton.1 hn') notTag'
    | sum r =>
      cases u with
      | builtin _ | tuple _ => simp [DataType.sameKind] at kept
      | sum s' =>
        cases t' with
        | builtin c => exact absurd ht' (ha.not_builtin c)
        | sum _ => simp [DataType.sameKind] at taken
        | tuple t =>
          obtain ⟨v, hv, rfl⟩ := List.mem_map.1 ((List.mem_cons.1 hn).resolve_left notTag)
          obtain ⟨w, hw, tags⟩ := List.mem_map.1 ((List.mem_cons.1 hn').resolve_left notTag')
          exact ⟨s, s', t, r, ht, hu, htu, ht', hu', htu', v, hv, w, hw, tags.symm⟩

theorem disjoint_differenceFrom (ha : a.Lawful) (hb : b.Lawful) (free : ¬a.Clashes b)
    {t t' u u' : DataType} (ht : t ∈ a.types) (hu : u ∈ b.types) (htu : u.tag = t.tag)
    (ht' : t' ∈ a.types) (hu' : u' ∈ b.types) (htu' : u'.tag = t'.tag) (apart : t ≠ t') :
    (t.differenceFrom u).names.Disjoint (t'.differenceFrom u').names := by
  intro n hn hn'
  rw [DataType.names_differenceFrom] at hn hn'
  split at hn <;> split at hn'
  case isTrue.isTrue => exact apart (ha.eq_of_mem_names ht ht' hn hn')
  case isTrue.isFalse kept taken =>
    exact free (clashes_of_mem_names ha hb ht hu htu kept ht' hu' htu' taken apart hn hn')
  case isFalse.isTrue taken kept =>
    exact free (clashes_of_mem_names ha hb ht' hu' htu' kept ht hu htu taken apart.symm hn' hn)
  case isFalse.isFalse =>
    have same : u = u' := hb.eq_of_mem_names hu hu' hn hn'
    exact apart (ha.eq_of_tag ht ht' (by rw [← htu, ← htu', same]))

theorem nodup_names_of_not_clashes (ha : a.Lawful) (hb : b.Lawful) (free : ¬a.Clashes b) :
    (a.differenceFrom b).names.Nodup := by
  have whole : ∀ w ∈ (a.differenceFrom b).types, w.names.Nodup ∧
      ∀ n ∈ Builtin.all.map Builtin.tag, n ∉ w.names := by
    intro w hw
    obtain ⟨t, ht, u, hu, -, rfl⟩ := (mem_differenceFrom hb).1 hw
    rw [DataType.names_differenceFrom]
    split
    · exact ⟨ha.nodup_names ht, fun n hn => ha.builtin_not_mem_names ht hn⟩
    · exact ⟨hb.nodup_names hu, fun n hn => hb.builtin_not_mem_names hu hn⟩
  have apart :
      (a.differenceFrom b).types.Pairwise (Function.onFun List.Disjoint DataType.names) := by
    rw [differenceFrom, List.pairwise_filterMap]
    refine ha.nodup_tags.of_map.imp_of_mem ?_
    intro t t' ht ht' distinct w hw w' hw'
    obtain ⟨u, found, rfl⟩ := Option.map_eq_some_iff.1 hw
    obtain ⟨u', found', rfl⟩ := Option.map_eq_some_iff.1 hw'
    obtain ⟨hu, htu⟩ := (find?_iff_of_nodup hb.nodup_tags).1 found
    obtain ⟨hu', htu'⟩ := (find?_iff_of_nodup hb.nodup_tags).1 found'
    exact disjoint_differenceFrom ha hb free ht hu htu ht' hu' htu' distinct
  have builtins : (Builtin.all.map Builtin.tag).Nodup := (List.nodup_append.1 ha.names).1
  have types : ((a.differenceFrom b).types.flatMap DataType.names).Nodup :=
    List.nodup_flatMap.2 ⟨fun w hw => (whole w hw).1, apart⟩
  refine List.nodup_append.2 ⟨builtins, types, ?_⟩
  rintro n hn m hm rfl
  obtain ⟨w, hw, hnw⟩ := List.mem_flatMap.1 hm
  exact (whole w hw).2 n hn hnw

theorem not_clashes_of_nodup_names (ha : a.Lawful) (hb : b.Lawful)
    (h : (a.differenceFrom b).names.Nodup) : ¬a.Clashes b := by
  rintro ⟨s, s', t, u, hs, hs', tags, ht, hu, tags', v, hv, w, hw, same⟩
  have kept : .sum (s.differenceFrom s') ∈ (a.differenceFrom b).types :=
    (mem_differenceFrom hb).2 ⟨_, hs, _, hs', tags, rfl⟩
  have taken : DataType.asDifferent (.sum u) ∈ (a.differenceFrom b).types :=
    (mem_differenceFrom hb).2 ⟨_, ht, _, hu, tags', rfl⟩
  have twice : DataType.sum (s.differenceFrom s') = DataType.asDifferent (.sum u) := by
    refine eq_of_nodup_flatMap (x := v.tag) (List.nodup_append.1 h).2.1 kept taken ?_ ?_
    · have names : (DataType.sum (s.differenceFrom s')).names = (DataType.sum s).names :=
        DataType.names_differenceFrom (.sum s) (.sum s')
      exact names ▸ List.mem_cons_of_mem _ (List.mem_map_of_mem hv)
    · exact same ▸ List.mem_cons_of_mem _ (List.mem_map_of_mem hw)
  have tag : s.tag = u.tag := congrArg DataType.tag twice
  have types := ha.eq_of_tag hs ht (tag.trans tags')
  simp at types

/-- **Names of a difference.** They are distinct exactly if no sum that stays clashes with one that
stands for a tuple. -/
theorem nodup_names_differenceFrom_iff (ha : a.check = .ok ()) (hb : b.check = .ok ()) :
    (a.differenceFrom b).names.Nodup ↔ ¬a.Clashes b :=
  ⟨not_clashes_of_nodup_names (lawful_of_check ha) (lawful_of_check hb),
    nodup_names_of_not_clashes (lawful_of_check ha) (lawful_of_check hb)⟩

end Domain

/-! ## A clash -/

/-- The product of that tag without elements. -/
def Tuple.empty (tag : String) : Tuple := ⟨tag, .product, [], false, .unknown⟩

/-- A sum of one variant. -/
def Sum.single (tag variant : String) : Sum := ⟨tag, [.empty variant], false, .unknown⟩

/-- The tuple `t` and the sum `s`. -/
def tupleAndSum : Domain := ⟨"a", [.tuple (.empty "t"), .sum (.single "s" "v")], .unknown⟩

/-- The same two tags, both of sums. -/
def sums (variant : String) : Domain :=
  ⟨"b", [.sum (.single "t" variant), .sum (.single "s" "w")], .unknown⟩

/-- As long as `t` has another variant than `v`, nothing clashes. -/
theorem Domain.nodup_names_differenceFrom_iff_apart :
    (tupleAndSum.differenceFrom (sums "u")).names.Nodup ∧ ¬tupleAndSum.Clashes (sums "u") := by
  have distinct : (tupleAndSum.differenceFrom (sums "u")).names.Nodup := by decide
  exact ⟨distinct, (nodup_names_differenceFrom_iff (by decide) (by decide)).1 distinct⟩

/-- Two domains within the rules may clash, and then a variant is there twice. -/
theorem Domain.not_forall_nodup_names_differenceFrom :
    ¬∀ a b : Domain, a.check = .ok () → b.check = .ok () → (a.differenceFrom b).names.Nodup := by
  intro all
  have distinct := all tupleAndSum (sums "v") (by decide) (by decide)
  revert distinct
  decide

end TypeDomains
