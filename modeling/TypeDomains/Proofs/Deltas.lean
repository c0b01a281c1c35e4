import TypeDomains.Proofs.Exactness

/-!
# Checking what a permutation adds

Of a base within the rules a permutation keeps some content as it was. So to check the permuted
domain is to check what is new in it, and that what is kept lost no type it refers to and no sum
its last variant (`Permutation.check_iff_lawfulDelta`).
-/

namespace TypeDomains

/-! ## The rules of one tuple -/

/-- The rules that a tuple keeps by itself, if what it may refer to is in `types`. -/
structure Tuple.Lawful (types : List String) (t : Tuple) : Prop where
  names : t.NamesDistinct
  record : t.kind = .record → t.elements ≠ []
  references : ∀ e ∈ t.elements, e.type.name ∈ types
  order : VariadicLast t.elements
  ions : ∀ e ∈ t.elements, ¬e.IsOptionalIon

theorem Tuple.Lawful.of_references {types types' : List String} {t : Tuple} (h : t.Lawful types)
    (references : ∀ e ∈ t.elements, e.type.name ∈ types') : t.Lawful types' :=
  { h with references := references }

theorem Domain.lawful_iff {d : Domain} : d.Lawful ↔ d.names.Nodup ∧
    (∀ s, .sum s ∈ d.types → s.variants ≠ []) ∧ ∀ t ∈ d.tuples, t.Lawful d.typeNames := by
  constructor
  · intro h
    exact ⟨h.names, h.sums, fun t ht => ⟨⟨h.identifiers t ht, h.fields t ht⟩, h.records t ht,
      h.references t ht, h.order t ht, h.ions t ht⟩⟩
  · rintro ⟨names, sums, tuples⟩
    exact {
      names := names
      identifiers := fun t ht => (tuples t ht).names.identifiers
      fields := fun t ht => (tuples t ht).names.fields
      sums := sums
      records := fun t ht => (tuples t ht).record
      references := fun t ht => (tuples t ht).references
      order := fun t ht => (tuples t ht).order
      ions := fun t ht => (tuples t ht).ions }

/-! ## Old and new content -/

namespace DataType

/-- The type with more variants, if it is a sum. -/
def extend : DataType → List Tuple → DataType
  | sum s, vs => sum { s with variants := s.variants ++ vs }
  | t, _ => t

/-- The variants that `u` has behind those of `t`. -/
def behind : DataType → DataType → List Tuple
  | sum s, sum u => u.variants.drop s.variants.length
  | _, _ => []

end DataType

namespace SumChange

/-- What the changes keep of a type. -/
def keep (cs : List SumChange) : DataType → DataType
  | .sum s => .sum { s with variants := s.variants.filter fun v => !removes cs s.tag v.tag }
  | t => t

/-- A type as the changes leave it. A sum has new variants behind those that it keeps. -/
inductive Grows (cs : List SumChange) : DataType → DataType → Prop where
  | tuple {t} : Grows cs (.tuple t) (.tuple t)
  | builtin {b} : Grows cs (.builtin b) (.builtin b)
  | sum {s news} : (∀ v ∈ news, Adds cs s.tag v) →
    Grows cs (.sum s) (.sum { s with variants := s.variants ++ news })

variable {cs : List SumChange} {t u : DataType}

theorem tuples_keep_subset (cs : List SumChange) (t : DataType) :
    (keep cs t).tuples ⊆ t.tuples := by
  cases t with
  | builtin b | tuple t => exact List.Subset.refl _
  | sum s => exact List.filter_subset_self _

theorem names_keep_sublist (cs : List SumChange) (t : DataType) :
    (keep cs t).names.Sublist t.names := by
  cases t with
  | builtin b | tuple t => exact List.Sublist.refl _
  | sum s => exact (List.filter_sublist.map _).cons_cons _

theorem Alters.grows (h : Alters cs t u) : Grows cs (keep cs t) u := by
  cases h with
  | tuple => exact .tuple
  | builtin => exact .builtin
  | sum added => exact .sum added

/-- A sum that no change names still has its variants. -/
theorem Alters.variants_ne_nil {s : Sum} (h : Alters cs t (.sum s))
    (apart : ∀ c ∈ cs, c.tag ≠ s.tag) (full : ∀ r, t = .sum r → r.variants ≠ []) :
    s.variants ≠ [] := by
  cases h with
  | @sum r news added =>
    have stays (v : Tuple) : removes cs r.tag v.tag = false := by
      rw [removes, List.any_eq_false]
      intro c hc removal
      exact apart c hc (by simpa using (Bool.and_eq_true_iff.1 removal).1)
    simpa [stays] using fun none => absurd none (full r rfl)

namespace Grows

theorem extend_behind (h : Grows cs t u) : t.extend (t.behind u) = u := by
  cases h with
  | tuple | builtin => rfl
  | sum added => simp [DataType.behind, DataType.extend]

theorem names_eq (h : Grows cs t u) : u.names = t.names ++ (t.behind u).map Tuple.tag := by
  cases h with
  | tuple | builtin => rfl
  | sum added => simp [DataType.behind, DataType.names]

theorem tuples_eq (h : Grows cs t u) : u.tuples = t.tuples ++ t.behind u := by
  cases h with
  | tuple | builtin => rfl
  | sum added => simp [DataType.behind, DataType.tuples]

theorem adds_behind (h : Grows cs t u) : ∀ v ∈ t.behind u, Adds cs t.tag v := by
  cases h with
  | tuple | builtin => exact List.forall_mem_nil _
  | sum added => simpa [DataType.behind, DataType.tag] using added

end Grows

variable {ts us : List DataType}

theorem zipWith_extend_behind (h : List.Forall₂ (Grows cs) ts us) :
    List.zipWith DataType.extend ts (List.zipWith DataType.behind ts us) = us := by
  induction h with
  | nil => rfl
  | cons grows _ ih =>
    rw [List.zipWith_cons_cons, List.zipWith_cons_cons, grows.extend_behind, ih]

theorem forall₂_adds_behind (h : List.Forall₂ (Grows cs) ts us) :
    List.Forall₂ (fun t vs => ∀ v ∈ vs, Adds cs t.tag v) ts
      (List.zipWith DataType.behind ts us) := by
  induction h with
  | nil => exact .nil
  | cons grows _ ih => exact .cons grows.adds_behind ih

end SumChange

namespace Permutation

variable (p : Permutation) (a b : Domain)

/-- What is kept of the base: the types that are left, without what is new in the sums. -/
def kept : List DataType := (p.left a).map (SumChange.keep p.sums)

/-- For each type that is kept, the variants that are new in the permuted domain. -/
def arrivals : List (List Tuple) := List.zipWith DataType.behind (p.kept a) b.types

def newTuples : List Tuple := (p.arrivals a b).flatten ++ p.included.flatMap DataType.tuples

def newNames : List String :=
  (p.arrivals a b).flatten.map Tuple.tag ++ p.included.flatMap DataType.names

/-- What is left to check of a permuted domain. -/
structure LawfulDelta : Prop where
  names : (p.newNames a b).Nodup
  apart : ∀ n ∈ p.newNames a b,
    n ∉ Builtin.all.map Builtin.tag ∧ n ∉ (p.kept a).flatMap DataType.names
  tuples : ∀ t ∈ p.newTuples a b, t.Lawful b.typeNames
  included : ∀ s, .sum s ∈ p.included → s.variants ≠ []
  references : ∀ t ∈ (p.kept a).flatMap DataType.tuples, ∀ e ∈ t.elements,
    e.type.name ∈ p.excluded.map Ident.name → e.type.name ∈ p.included.map DataType.tag
  changed : ∀ s, .sum s ∈ b.types → (∃ c ∈ p.sums, c.tag = s.tag) → s.variants ≠ []

variable {p a b} {ds : List Domain} {altered : List DataType}

/-- The domain `b` is what the permutation leaves of `a`, altered, and what it includes. -/
structure Leaves (p : Permutation) (a b : Domain) (altered : List DataType) : Prop where
  types : b.types = altered ++ p.included
  alters : List.Forall₂ (SumChange.Alters p.sums) (p.left a) altered

namespace Leaves

theorem grows (h : p.Leaves a b altered) :
    List.Forall₂ (SumChange.Grows p.sums) (p.kept a) altered :=
  List.forall₂_map_left_iff.2 (h.alters.imp fun _ _ => SumChange.Alters.grows)

/-- In front of what it includes, the permuted domain has what is kept, with what is new. -/
theorem arrivals_eq (h : p.Leaves a b altered) :
    p.arrivals a b = List.zipWith DataType.behind (p.kept a) altered := by
  have whole : List.zipWith DataType.behind (p.kept a ++ []) (altered ++ p.included) = _ ++ _ :=
    List.zipWith_append h.grows.length_eq
  rw [arrivals, h.types]
  simpa using whole

theorem extend_arrivals (h : p.Leaves a b altered) :
    List.zipWith DataType.extend (p.kept a) (p.arrivals a b) = altered := by
  rw [h.arrivals_eq, SumChange.zipWith_extend_behind h.grows]

theorem adds_arrivals (h : p.Leaves a b altered) :
    List.Forall₂ (fun t vs => ∀ v ∈ vs, SumChange.Adds p.sums t.tag v) (p.kept a)
      (p.arrivals a b) := by
  rw [h.arrivals_eq]
  exact SumChange.forall₂_adds_behind h.grows

/-- Behind the names of what is kept there are the new ones. -/
theorem perm_names (h : p.Leaves a b altered) : b.names.Perm
    ((Builtin.all.map Builtin.tag ++ (p.kept a).flatMap DataType.names) ++ p.newNames a b) := by
  have split := perm_flatMap_append (fun t u => (DataType.behind t u).map Tuple.tag)
    (fun _ _ => SumChange.Grows.names_eq) h.grows
  rw [Domain.names, h.types, List.flatMap_append, newNames, h.arrivals_eq, List.map_flatten,
    List.map_zipWith, List.append_assoc, ← List.append_assoc (List.flatMap _ (p.kept a))]
  exact (split.append_right _).append_left _

theorem perm_tuples (h : p.Leaves a b altered) :
    b.tuples.Perm ((p.kept a).flatMap DataType.tuples ++ p.newTuples a b) := by
  have split := perm_flatMap_append DataType.behind
    (fun _ _ => SumChange.Grows.tuples_eq) h.grows
  rw [Domain.tuples, h.types, List.flatMap_append, newTuples, h.arrivals_eq, ← List.append_assoc]
  exact split.append_right _

theorem mem_tuples (h : p.Leaves a b altered) {t : Tuple} : t ∈ b.tuples ↔
    t ∈ (p.kept a).flatMap DataType.tuples ∨ t ∈ p.newTuples a b := by
  rw [h.perm_tuples.mem_iff, List.mem_append]

theorem typeNames_eq (h : p.Leaves a b altered) : b.typeNames =
    Builtin.all.map Builtin.tag ++ ((p.left a).map DataType.tag ++
      p.included.map DataType.tag) := by
  have tags : altered.map DataType.tag = (p.left a).map DataType.tag :=
    map_eq_map_iff_forall₂.2 (h.alters.flip.imp fun _ _ alters => alters.tag_eq)
  rw [Domain.typeNames, h.types, List.map_append, tags]

/-- The names of what is kept are distinct, as they are in the base. -/
theorem nodup_names_kept (ha : a.Lawful) :
    (Builtin.all.map Builtin.tag ++ (p.kept a).flatMap DataType.names).Nodup := by
  have each : ((p.left a).flatMap fun t => (SumChange.keep p.sums t).names).Sublist
      ((p.left a).flatMap DataType.names) :=
    List.Sublist.flatMap_right _ fun t _ => SumChange.names_keep_sublist p.sums t
  have all : ((p.left a).flatMap DataType.names).Sublist (a.types.flatMap DataType.names) :=
    List.filter_sublist.flatMap _
  rw [kept, List.flatMap_map]
  exact ha.names.sublist ((each.trans all).append_left _)

/-- The names are distinct if the new ones are, and are apart from all others. -/
theorem nodup_names_iff (h : p.Leaves a b altered) (ha : a.Lawful) : b.names.Nodup ↔
    (p.newNames a b).Nodup ∧ ∀ n ∈ p.newNames a b,
      n ∉ Builtin.all.map Builtin.tag ∧ n ∉ (p.kept a).flatMap DataType.names := by
  rw [h.perm_names.nodup_iff, List.nodup_append', and_iff_right (nodup_names_kept ha),
    List.disjoint_comm]
  simp only [List.Disjoint, List.mem_append, imp_false, not_or]

/-- What is kept are tuples of the base. -/
theorem mem_tuples_of_kept {t : Tuple} (ht : t ∈ (p.kept a).flatMap DataType.tuples) :
    t ∈ a.tuples := by
  obtain ⟨_, hkept, ht⟩ := List.mem_flatMap.1 ht
  obtain ⟨u, hu, rfl⟩ := List.mem_map.1 hkept
  exact List.mem_flatMap.2 ⟨u, List.mem_of_mem_filter hu, SumChange.tuples_keep_subset _ _ ht⟩

/-- What is kept refers to types that are there, if those that were left out have come back. -/
theorem references_iff (h : p.Leaves a b altered) (ha : a.Lawful)
    (own : ∀ i ∈ p.excluded, i.name ∈ a.types.map DataType.tag) {name : String}
    (known : name ∈ a.typeNames) : name ∈ b.typeNames ↔
      (name ∈ p.excluded.map Ident.name → name ∈ p.included.map DataType.tag) := by
  rw [h.typeNames_eq, List.mem_append, List.mem_append]
  constructor
  · rintro (builtin | left | back) out
    · obtain ⟨i, hi, rfl⟩ := List.mem_map.1 out
      obtain ⟨t, ht, tag⟩ := List.mem_map.1 (own i hi)
      exact absurd (Builtin.isTag_iff.2 (tag ▸ builtin)) (ha.not_isTag ht)
    · obtain ⟨t, ht, rfl⟩ := List.mem_map.1 left
      have stays : ¬p.excludes t := by simpa using (List.mem_filter.1 ht).2
      exact absurd (by simpa [excludes] using out) stays
    · exact back
  · intro back
    rcases List.mem_append.1 known with builtin | old
    · exact .inl builtin
    · by_cases out : name ∈ p.excluded.map Ident.name
      · exact .inr (.inr (back out))
      · obtain ⟨t, ht, rfl⟩ := List.mem_map.1 old
        refine .inr (.inl (List.mem_map_of_mem (List.mem_filter.2 ⟨ht, ?_⟩)))
        simpa [excludes] using out

/-- Of the sums of the base only those that are changed can have lost their variants. -/
theorem sums_iff (h : p.Leaves a b altered) (ha : a.Lawful) :
    (∀ s, .sum s ∈ b.types → s.variants ≠ []) ↔
      (∀ s, .sum s ∈ p.included → s.variants ≠ []) ∧
      ∀ s, .sum s ∈ b.types → (∃ c ∈ p.sums, c.tag = s.tag) → s.variants ≠ [] := by
  constructor
  · intro full
    refine ⟨fun s hs => full s ?_, fun s hs _ => full s hs⟩
    rw [h.types]
    exact List.mem_append_right _ hs
  · rintro ⟨included, changed⟩ s hs
    -- A sum that no change names has what it has in the base.
    by_cases named : ∃ c ∈ p.sums, c.tag = s.tag
    · exact changed s hs named
    · rw [h.types] at hs
      rcases List.mem_append.1 hs with old | new
      · obtain ⟨t, ht, alters⟩ := exists_of_forall₂_right h.alters old
        exact alters.variants_ne_nil (by simpa using named)
          fun r hr => ha.sums r (hr ▸ List.mem_of_mem_filter ht)
      · exact included s new

/-- The rules for the permuted domain come down to those for its delta. -/
theorem lawful_iff (h : p.Leaves a b altered) (ha : a.Lawful)
    (own : ∀ i ∈ p.excluded, i.name ∈ a.types.map DataType.tag) :
    b.Lawful ↔ p.LawfulDelta a b := by
  have lawful : ∀ t ∈ (p.kept a).flatMap DataType.tuples, t.Lawful a.typeNames := fun t ht =>
    (Domain.lawful_iff.1 ha).2.2 t (mem_tuples_of_kept ht)
  rw [Domain.lawful_iff, h.nodup_names_iff ha, h.sums_iff ha]
  constructor
  · rintro ⟨⟨names, apart⟩, ⟨included, changed⟩, tuples⟩
    refine ⟨names, apart, fun t ht => tuples t (h.mem_tuples.2 (.inr ht)), included, ?_, changed⟩
    intro t ht e he
    exact (h.references_iff ha own ((lawful t ht).references e he)).1
      ((tuples t (h.mem_tuples.2 (.inl ht))).references e he)
  · rintro ⟨names, apart, tuples, included, references, changed⟩
    refine ⟨⟨names, apart⟩, ⟨included, changed⟩, fun t ht => ?_⟩
    rcases h.mem_tuples.1 ht with old | new
    · refine (lawful t old).of_references fun e he => ?_
      exact (h.references_iff ha own ((lawful t old).references e he)).2 (references t old e he)
    · exact tuples t new

end Leaves

/-- **To check a permuted domain is to check its delta.** What is kept of a base within the rules
can only clash with what is new, miss a type that was left out, or be a sum with nothing left. -/
theorem check_iff_lawfulDelta (found : Domain.find? ds p.base = some a) (ha : a.check = .ok ())
    (made : p.toDomain ds = .ok b) :
    b.types = List.zipWith DataType.extend (p.kept a) (p.arrivals a b) ++ p.included ∧
    List.Forall₂ (fun t vs => ∀ v ∈ vs, SumChange.Adds p.sums t.tag v) (p.kept a)
      (p.arrivals a b) ∧
    (b.check = .ok () ↔ p.LawfulDelta a b) := by
  have lawful := Domain.lawful_of_check ha
  obtain ⟨altered, types, alters⟩ := toDomain_leaves made found lawful
  have leaves : p.Leaves a b altered := ⟨types, alters⟩
  have own : ∀ i ∈ p.excluded, i.name ∈ a.types.map DataType.tag := by
    obtain ⟨base, hbase, _, altering, -⟩ := toDomain_ok.1 made
    obtain rfl := Option.some.inj (hbase.symm.trans found)
    obtain ⟨_, exclusion, -⟩ := alterTypes_ok.1 altering
    exact ((excluded_ok lawful).1 exclusion).1.present
  refine ⟨?_, leaves.adds_arrivals, ?_⟩
  · rw [leaves.extend_arrivals, types]
  · rw [← leaves.lawful_iff lawful own]
    exact ⟨Domain.lawful_of_check, Domain.Lawful.check⟩

end Permutation

/-! ## A type that is referred to -/

/-- The tuple `t` refers to `u`. -/
def referring : Domain :=
  ⟨"a", [.tuple ⟨"t", .product, [⟨"x", "", ⟨"u", .required, .unknown⟩, .unknown⟩], false, .unknown⟩,
    .tuple (.empty "u"), .sum (.single "s" "v")], .unknown⟩

/-- Leaves `u` out, includes a sum, and puts another variant in the place of the one of `s`. -/
def withSum (variant : String) (s : Sum) : Permutation :=
  ⟨"b", "a", [⟨"u", .unknown⟩], [.sum s], [⟨"s", [⟨"v", .unknown⟩], [.empty variant], .unknown⟩],
    .unknown⟩

/-- The type `u` may come back as one of another kind, but not as a variant. A new variant may not
clash with what is kept. -/
theorem Permutation.check_iff_lawfulDelta_withSum :
    (∃ b, (withSum "w" (.single "u" "x")).toDomain [referring] = .ok b ∧
      (withSum "w" (.single "u" "x")).LawfulDelta referring b) ∧
    (∃ b, (withSum "w" (.single "x" "u")).toDomain [referring] = .ok b ∧
      ¬(withSum "w" (.single "x" "u")).LawfulDelta referring b) ∧
    ∃ b, (withSum "t" (.single "u" "x")).toDomain [referring] = .ok b ∧
      ¬(withSum "t" (.single "u" "x")).LawfulDelta referring b := by
  have delta {variant : String} {s : Sum} {b : Domain}
      (made : (withSum variant s).toDomain [referring] = .ok b) :
      b.check = .ok () ↔ (withSum variant s).LawfulDelta referring b :=
    (check_iff_lawfulDelta rfl (by decide) made).2.2
  exact ⟨⟨_, rfl, (delta rfl).1 (by decide)⟩, ⟨_, rfl, (delta rfl).not.1 (by decide)⟩,
    ⟨_, rfl, (delta rfl).not.1 (by decide)⟩⟩

end TypeDomains
