import TypeDomains.Proofs.Shapes

/-!
# The edits of a permutation

What a permutation leaves of its base, said of all its alterations at once
(`Permutation.toDomain_leaves`), and that the difference between the two domains shows it:
the types that are left, with the variants that were removed and have not come back flagged
(`Permutation.shows_of_toDomain`).
-/

namespace TypeDomains

theorem filter_any_cons {α : Type} (f : α → String) (as : List α) (i : Ident) (is : List Ident) :
    (as.filter (f · != i.name)).filter (fun a => !is.any (·.name == f a)) =
      as.filter fun a => !(i :: is).any (·.name == f a) := by
  rw [List.filter_filter]
  congr 1
  funext a
  simp [bne, BEq.comm (a := i.name), Bool.and_comm]

/-- Where each step erases the first element of a name, a run erases, of elements with distinct
names, those that are named. Of what stands behind them it may erase something too. -/
theorem foldlM_erases {ε α : Type} {f : α → String} {step : List α → Ident → Except ε (List α)}
    (hstep : ∀ as i bs, step as i = .ok bs → as.eraseP (f · == i.name) = bs) {is : List Ident}
    {olds news bs : List α} (h : is.foldlM step (olds ++ news) = .ok bs)
    (nodup : (olds.map f).Nodup) :
    ∃ rest, rest ⊆ news ∧ bs = olds.filter (fun a => !is.any (·.name == f a)) ++ rest := by
  induction is generalizing olds news with
  | nil =>
    obtain rfl := pure_ok.1 h
    exact ⟨news, List.Subset.refl _, by simp⟩
  | cons i is ih =>
    obtain ⟨_, first, h⟩ := bind_ok.1 h
    obtain rfl := hstep _ _ _ first
    obtain ⟨rest, hrest, erased⟩ := eraseP_append (a := i.name) news nodup
    rw [erased] at h
    obtain ⟨rest', hrest', rfl⟩ := ih h (nodup.sublist (List.filter_sublist.map _))
    exact ⟨rest', List.Subset.trans hrest' hrest, by rw [filter_any_cons]⟩

/-! ## Sums -/

namespace SumChange

/-- Some change to the sum removes the variant. -/
def removes (cs : List SumChange) (sum variant : String) : Bool :=
  cs.any fun c => c.tag == sum && c.removed.any (·.name == variant)

/-- Some change to the sum adds the variant. -/
def Adds (cs : List SumChange) (sum : String) (v : Tuple) : Prop :=
  ∃ c ∈ cs, c.tag = sum ∧ v ∈ c.added

/-- What the changes make of a type. Behind the variants that stay, a sum has new ones. -/
inductive Alters (cs : List SumChange) : DataType → DataType → Prop where
  | tuple {t} : Alters cs (.tuple t) (.tuple t)
  | builtin {b} : Alters cs (.builtin b) (.builtin b)
  | sum {s news} : (∀ v ∈ news, Adds cs s.tag v) → Alters cs (.sum s)
      (.sum { s with variants := s.variants.filter (fun v => !removes cs s.tag v.tag) ++ news })

variable {cs : List SumChange} {c : SumChange} {t t' : DataType}

theorem removes_append (cs ds : List SumChange) (sum variant : String) :
    removes (cs ++ ds) sum variant = (removes cs sum variant || removes ds sum variant) :=
  List.any_append

theorem removes_singleton (c : SumChange) (variant : String) :
    removes [c] c.tag variant = c.removed.any (·.name == variant) := by
  simp [removes]

theorem Adds.append_left {sum : String} {v : Tuple} (h : Adds cs sum v) (ds : List SumChange) :
    Adds (cs ++ ds) sum v := by
  obtain ⟨c, hc, tag, hv⟩ := h
  exact ⟨c, List.mem_append_left ds hc, tag, hv⟩

theorem Alters.tag_eq (h : Alters cs t t') : t'.tag = t.tag := by
  cases h <;> rfl

theorem Alters.refl (t : DataType) : Alters [] t t := by
  cases t with
  | builtin b => exact .builtin
  | tuple t => exact .tuple
  | sum s =>
    have unchanged : Alters [] (.sum s) _ := .sum (List.forall_mem_nil _)
    simpa [removes] using unchanged

/-- A change to one sum leaves all others. -/
theorem Alters.concat_of_ne (h : Alters cs t t') (apart : t.tag ≠ c.tag) :
    Alters (cs ++ [c]) t t' := by
  cases h with
  | tuple => exact .tuple
  | builtin => exact .builtin
  | @sum s news added =>
    have same (v : Tuple) : removes (cs ++ [c]) s.tag v.tag = removes cs s.tag v.tag := by
      have other : removes [c] s.tag v.tag = false := by
        simpa [removes] using fun tag => absurd tag.symm apart
      rw [removes_append, other, Bool.or_false]
    simpa only [same] using Alters.sum fun v hv => (added v hv).append_left [c]

/-- Removals take the variants that were there from the start, as long as they are there. -/
theorem foldlM_removeVariant {sum : String} {is : List Ident} {olds news vs : List Tuple}
    (h : is.foldlM (removeVariant sum) (olds ++ news) = .ok vs)
    (nodup : (olds.map Tuple.tag).Nodup) : ∃ rest, rest ⊆ news ∧
      vs = olds.filter (fun v => !is.any (·.name == v.tag)) ++ rest :=
  foldlM_erases (fun _ _ _ step => (removeVariant_ok.1 step).2) h nodup

theorem Alters.concat_of_change {s r r' : Sum} (h : Alters cs (.sum s) (.sum r))
    (tag : s.tag = c.tag) (nodup : (s.variants.map Tuple.tag).Nodup) (hr : c.change r = .ok r') :
    Alters (cs ++ [c]) (.sum s) (.sum r') := by
  cases h with
  | @sum _ news added =>
    obtain ⟨kept, removal, rfl⟩ := change_ok.1 hr
    obtain ⟨rest, hrest, rfl⟩ :=
      foldlM_removeVariant removal (nodup.sublist (List.filter_sublist.map _))
    have fresh : ∀ v ∈ rest ++ c.added, Adds (cs ++ [c]) s.tag v := by
      intro v hv
      rcases List.mem_append.1 hv with hv | hv
      · exact (added v (hrest hv)).append_left [c]
      · exact ⟨c, by simp, tag.symm, hv⟩
    have removed (v : Tuple) : removes (cs ++ [c]) s.tag v.tag =
        (removes cs s.tag v.tag || c.removed.any (·.name == v.tag)) := by
      rw [removes_append, tag, removes_singleton]
    have whole := Alters.sum fresh
    simpa only [removed, List.append_assoc, List.filter_filter, Bool.not_or, Bool.and_comm]
      using whole

/-! ## All types -/

variable {base types types' : List DataType}

theorem forall₂_concat_of_ne (h : List.Forall₂ (Alters cs) base types)
    (apart : ∀ t ∈ base, t.tag ≠ c.tag) : List.Forall₂ (Alters (cs ++ [c])) base types := by
  induction h with
  | nil => exact .nil
  | cons ht _ ih =>
    obtain ⟨first, rest⟩ := List.forall_mem_cons.1 apart
    exact .cons (ht.concat_of_ne first) (ih rest)

/-- One change, behind those that were made before. -/
theorem forall₂_changeFirst (h : List.Forall₂ (Alters cs) base types)
    (htypes : c.changeFirst types = .ok types') (tags : (base.map DataType.tag).Nodup)
    (variants : ∀ s, .sum s ∈ base → (s.variants.map Tuple.tag).Nodup) :
    List.Forall₂ (Alters (cs ++ [c])) base types' := by
  induction h generalizing types' with
  | nil => simp [changeFirst] at htypes
  | @cons t t' ts ts' ht hts ih =>
    obtain ⟨new, tags⟩ := List.nodup_cons.1 tags
    simp only [changeFirst, beq_iff_eq, ht.tag_eq] at htypes
    split at htypes
    · rename_i tag
      have others : ∀ u ∈ ts, u.tag ≠ c.tag := fun u hu same =>
        new (tag.trans same.symm ▸ List.mem_map_of_mem hu)
      cases ht with
      | tuple | builtin => simp at htypes
      | @sum s news added =>
        obtain ⟨r, hr, rfl⟩ := by simpa only [bind_ok, pure_ok] using htypes
        have changed := (Alters.sum added).concat_of_change tag
          (variants s List.mem_cons_self) hr
        exact .cons changed (forall₂_concat_of_ne hts others)
    · rename_i apart
      obtain ⟨us, hus, rfl⟩ := by simpa only [bind_ok, pure_ok] using htypes
      exact .cons (ht.concat_of_ne apart)
        (ih hus tags fun s hs => variants s (List.mem_cons_of_mem _ hs))

/-- All changes, one after the other. -/
theorem forall₂_foldlM (h : cs.foldlM apply base = .ok types)
    (tags : (base.map DataType.tag).Nodup)
    (variants : ∀ s, .sum s ∈ base → (s.variants.map Tuple.tag).Nodup) :
    List.Forall₂ (Alters cs) base types := by
  induction cs using List.reverseRecOn generalizing types with
  | nil =>
    obtain rfl := pure_ok.1 h
    exact List.forall₂_same.2 fun t _ => .refl t
  | append_singleton cs c ih =>
    rw [List.foldlM_append] at h
    obtain ⟨before, hbefore, last⟩ := bind_ok.1 h
    simp only [List.foldlM_cons, List.foldlM_nil, bind_pure] at last
    exact forall₂_changeFirst (ih hbefore) (apply_ok.1 last).2 tags variants

end SumChange

/-! ## Domains -/

theorem foldlM_excludeType {is : List Ident} {types left : List DataType}
    (h : is.foldlM excludeType types = .ok left) (nodup : (types.map DataType.tag).Nodup) :
    left = types.filter fun t => !is.any (·.name == t.tag) := by
  rw [← types.append_nil] at h
  obtain ⟨rest, hrest, rfl⟩ :=
    foldlM_erases (fun _ _ _ step => (excludeType_ok.1 step).2.2) h nodup
  rw [List.subset_nil.1 hrest, List.append_nil]

namespace Permutation

/-- The permutation leaves the type out. -/
def excludes (p : Permutation) (t : DataType) : Bool := p.excluded.any (·.name == t.tag)

/-- A type that the permutation leaves, or one of its tag, is there. -/
def lists (p : Permutation) (t : DataType) : Bool :=
  !p.excludes t || p.included.any (·.tag == t.tag)

variable {p : Permutation} {ds : List Domain} {a b : Domain}

/-- The types of a permuted domain: those of the base that are left, altered, and those that are
included. -/
theorem toDomain_leaves (hp : p.toDomain ds = .ok b) (hbase : Domain.find? ds p.base = some a)
    (ha : a.Lawful) : ∃ altered, b.types = altered ++ p.included ∧
      List.Forall₂ (SumChange.Alters p.sums) (a.types.filter (!p.excludes ·)) altered := by
  obtain ⟨base, found, types, halter, rfl⟩ := toDomain_ok.1 hp
  obtain rfl := Option.some.inj (found.symm.trans hbase)
  obtain ⟨left, hleft, altered, haltered, rfl⟩ := alterTypes_ok.1 halter
  obtain rfl := foldlM_excludeType hleft ha.nodup_tags
  refine ⟨altered, rfl, SumChange.forall₂_foldlM haltered ?_ ?_⟩
  · exact ha.nodup_tags.sublist (List.filter_sublist.map _)
  · exact fun s hs => ha.nodup_variants (List.mem_of_mem_filter hs)

end Permutation

/-! ## What the difference shows -/

namespace Permutation

variable (p : Permutation)

/-- A variant of a sum that is left is flagged if it was removed and none of its shape was added
that is still there in `r`, the sum with all its changes. -/
def ShowsVariant (r : Sum) (v w : Tuple) : Prop :=
  w = v.flag w.different ∧
    (w.different = true ↔ SumChange.removes p.sums r.tag v.tag ∧
      ¬∃ u ∈ r.variants, SumChange.Adds p.sums r.tag u ∧ v.sameShape u)

/-- How the difference to the permuted domain `b` shows a type of the base. -/
inductive Shows (b : Domain) : DataType → DataType → Prop where
  | tuple {t} : ¬p.excludes (.tuple t) → Shows b (.tuple t) (.tuple (t.flag false))
  | sum {s r vs} : ¬p.excludes (.sum s) → .sum r ∈ b.types → r.tag = s.tag →
    List.Forall₂ (p.ShowsVariant r) s.variants vs →
    Shows b (.sum s) (.sum { s with variants := vs, different := vs.any (·.different) })
  | again {t u w} : p.excludes t → u ∈ p.included → u.tag = t.tag → t.sameKind u →
    w.unflagged = t.unflagged → Shows b t w
  /-- A type that was left out and came back as one of the other kind is shown as it came back. -/
  | exchanged {t u} : p.excludes t → u ∈ p.included → u.tag = t.tag → ¬t.sameKind u →
    Shows b t u.asDifferent

variable {p} {ds : List Domain} {a b : Domain}

theorem showsVariant {r s : Sum} (nodup : (r.variants.map Tuple.tag).Nodup) (tag : r.tag = s.tag)
    {news : List Tuple} (added : ∀ v ∈ news, SumChange.Adds p.sums s.tag v)
    (variants : r.variants =
      s.variants.filter (fun v => !SumChange.removes p.sums s.tag v.tag) ++ news)
    {v : Tuple} (hv : v ∈ s.variants) :
    p.ShowsVariant r v (v.differenceFrom (r.variant? v.tag)) := by
  refine ⟨rfl, (Sum.different_variant nodup v).trans ⟨fun none => ⟨?_, ?_⟩, ?_⟩⟩
  · by_contra stays
    refine none ⟨v, ?_, v.sameShape_self⟩
    rw [variants]
    exact List.mem_append_left _ (List.mem_filter.2 ⟨hv, by simpa [tag] using stays⟩)
  · rintro ⟨u, hu, -, same⟩
    exact none ⟨u, hu, same⟩
  · rintro ⟨removed, none⟩ ⟨u, hu, same⟩
    refine none ⟨u, hu, ?_, same⟩
    rw [variants] at hu
    rcases List.mem_append.1 hu with old | new
    · have stays := (List.mem_filter.1 old).2
      rw [Tuple.tag_of_sameShape same, ← tag, removed] at stays
      simp at stays
    · exact tag ▸ added u new

/-- A type that is left. -/
theorem shows_of_alters (ha : a.Lawful) (hb : b.Lawful) {t u : DataType} (ht : t ∈ a.types)
    (hu : u ∈ b.types) (left : ¬p.excludes t) (h : SumChange.Alters p.sums t u) :
    p.Shows b t (t.differenceFrom u) := by
  cases h with
  | @builtin c => exact absurd ht (ha.not_builtin c)
  | @tuple t =>
    have same : t.differenceFrom (some t) = t.flag false := by
      simp [Tuple.differenceFrom, t.sameShape_self]
    rw [DataType.differenceFrom, same]
    exact .tuple left
  | @sum s news added =>
    refine .sum left hu rfl (List.forall₂_map_right_iff.2 (List.forall₂_same.2 fun v hv => ?_))
    exact showsVariant (s := s) (hb.nodup_variants hu) rfl added rfl hv

/-- A type that was left out and came back. -/
theorem shows_of_included {t u : DataType} (out : p.excludes t) (hu : u ∈ p.included)
    (tag : u.tag = t.tag) : p.Shows b t (t.differenceFrom u) := by
  by_cases kind : t.sameKind u
  · exact .again out hu tag kind (DataType.unflagged_differenceFrom kind)
  · rw [DataType.differenceFrom_of_not_sameKind kind]
    exact .exchanged out hu tag kind

theorem map_flag_of_showsVariant {r : Sum} {vs ws : List Tuple}
    (h : List.Forall₂ (p.ShowsVariant r) vs ws) :
    ws.map (·.flag false) = vs.map (·.flag false) := by
  induction h with
  | nil => rfl
  | cons shown _ ih =>
    rw [List.map_cons, List.map_cons, ih, shown.1]
    rfl

theorem Shows.unflagged_or_exchanged {t w : DataType} (h : p.Shows b t w) :
    w.unflagged = t.unflagged ∨
      ∃ u ∈ p.included, p.excludes t ∧ u.tag = t.tag ∧ ¬t.sameKind u ∧ w = u.asDifferent := by
  cases h with
  | tuple => exact .inl rfl
  | @sum s r vs _ _ _ variants =>
    left
    simp [DataType.unflagged, map_flag_of_showsVariant variants]
  | again _ _ _ _ same => exact .inl same
  | exchanged out hu tag kind => exact .inr ⟨_, hu, out, tag, kind, rfl⟩

/-- Every type of the base is found where it is listed, and shown. -/
theorem forall₂_shows (hbase : Domain.find? ds p.base = some a) (ha : a.Lawful)
    (hp : p.toDomain ds = .ok b) (hb : b.Lawful) :
    List.Forall₂ (p.Shows b) (a.types.filter p.lists) (a.differenceFrom b).types := by
  obtain ⟨altered, types, alters⟩ := toDomain_leaves hp hbase ha
  have shown {t u : DataType} (hu : u ∈ b.types) (tag : u.tag = t.tag)
      (h : p.Shows b t (t.differenceFrom u)) :
      ∃ w, (b.types.find? (·.tag == t.tag)).map t.differenceFrom = some w ∧ p.Shows b t w :=
    ⟨_, by rw [(find?_iff_of_nodup hb.nodup_tags).2 ⟨hu, tag⟩]; rfl, h⟩
  refine forall₂_filterMap (fun t ht listed => ?_) (fun t ht unlisted => ?_)
  · by_cases out : p.excludes t
    · obtain ⟨u, hu, tag⟩ : ∃ u ∈ p.included, u.tag = t.tag := by simpa [lists, out] using listed
      exact shown (types ▸ List.mem_append_right _ hu) tag (shows_of_included out hu tag)
    · have left : t ∈ a.types.filter (!p.excludes ·) := List.mem_filter.2 ⟨ht, by simpa using out⟩
      obtain ⟨u, hu, h⟩ := exists_of_forall₂_left alters left
      have hu : u ∈ b.types := types ▸ List.mem_append_left _ hu
      exact shown hu h.tag_eq (shows_of_alters ha hb ht hu out h)
  · obtain ⟨out, others⟩ : p.excludes t ∧ ∀ u ∈ p.included, u.tag ≠ t.tag := by
      simpa [lists] using unlisted
    rw [Option.map_eq_none_iff, List.find?_eq_none]
    intro u hu same
    have same : u.tag = t.tag := by simpa using same
    rw [types] at hu
    rcases List.mem_append.1 hu with hu | hu
    · obtain ⟨t', ht', h⟩ := exists_of_forall₂_right alters hu
      obtain ⟨ht', left⟩ := List.mem_filter.1 ht'
      obtain rfl := ha.eq_of_tag ht' ht (h.tag_eq.symm.trans same)
      simp [out] at left
    · exact others u hu same

/-- **What a transform from a base to its permutation shows.** It shows the types of the base that
are left or come back, in order: a tuple that is left unflagged, a sum that is left with those
variants flagged that were removed and have not come back in their shape. All it shows is of the
base, up to flags, but for types that came back as ones of the other kind. -/
theorem shows_of_toDomain (hbase : Domain.find? ds p.base = some a) (ha : a.check = .ok ())
    (hp : p.toDomain ds = .ok b) (hb : b.check = .ok ()) :
    List.Forall₂ (p.Shows b) (a.types.filter p.lists) (a.differenceFrom b).types ∧
    ∀ w ∈ (a.differenceFrom b).types, ∃ t ∈ a.types, w.unflagged = t.unflagged ∨
      ∃ u ∈ p.included, p.excludes t ∧ u.tag = t.tag ∧ ¬t.sameKind u ∧ w = u.asDifferent := by
  have shown := forall₂_shows hbase (Domain.lawful_of_check ha) hp (Domain.lawful_of_check hb)
  refine ⟨shown, fun w hw => ?_⟩
  obtain ⟨t, ht, h⟩ := exists_of_forall₂_right shown hw
  exact ⟨t, List.mem_of_mem_filter ht, h.unflagged_or_exchanged⟩

end Permutation

/-! ## Two edits -/

/-- The tuple `t` and a sum of two variants. -/
def tupleAndVariants : Domain :=
  ⟨"a", [.tuple (.empty "t"), .sum ⟨"s", [.empty "v", .empty "w"], false, .unknown⟩], .unknown⟩

/-- Removes both variants of the sum, and puts one of them back. -/
def withVariantBack : Permutation :=
  ⟨"b", "a", [], [], [⟨"s", [⟨"v", .unknown⟩, ⟨"w", .unknown⟩], [.empty "w"], .unknown⟩], .unknown⟩

/-- Takes the tuple `t` out, and puts a sum in its place. -/
def withSumForTuple : Permutation :=
  ⟨"b", "a", [⟨"t", .unknown⟩], [.sum (.single "t" "u")], [], .unknown⟩

/-- Only the variant that has not come back is flagged, and so is its sum. -/
theorem Permutation.shows_of_toDomain_back :
    ∃ b, withVariantBack.toDomain [tupleAndVariants] = .ok b ∧ b.check = .ok () ∧
      List.Forall₂ (withVariantBack.Shows b) tupleAndVariants.types
        (tupleAndVariants.differenceFrom b).types ∧
      (tupleAndVariants.differenceFrom b).types = [.tuple (.empty "t"),
        .sum ⟨"s", [(Tuple.empty "v").flag true, .empty "w"], true, .unknown⟩] := by
  have made : ∃ b, withVariantBack.toDomain [tupleAndVariants] = .ok b ∧ b.check = .ok () ∧
      (tupleAndVariants.differenceFrom b).types = [.tuple (.empty "t"),
        .sum ⟨"s", [(Tuple.empty "v").flag true, .empty "w"], true, .unknown⟩] :=
    ⟨_, rfl, by decide, by decide⟩
  obtain ⟨b, hb, check, types⟩ := made
  have all : tupleAndVariants.types.filter withVariantBack.lists = tupleAndVariants.types := by
    decide
  have shown := shows_of_toDomain (a := tupleAndVariants) rfl (by decide) hb check
  exact ⟨b, hb, check, all ▸ shown.1, types⟩

/-- What came back as one of the other kind brings its variants with it. -/
theorem Permutation.not_forall_names_of_base :
    ¬∀ (ds : List Domain) (p : Permutation) (a b : Domain), Domain.find? ds p.base = some a →
      a.check = .ok () → a.Unflagged → p.toDomain ds = .ok b → b.check = .ok () →
        ∀ w ∈ (a.differenceFrom b).types, ∀ n ∈ w.names, n ∈ a.names := by
  intro all
  have unflagged : tupleAndVariants.Unflagged := by
    simp [Domain.Unflagged, tupleAndVariants, DataType.Unflagged, DataType.different,
      DataType.tuples, Tuple.empty]
  have made : ∃ b, withSumForTuple.toDomain [tupleAndVariants] = .ok b ∧ b.check = .ok () ∧
      ∃ w ∈ (tupleAndVariants.differenceFrom b).types, "u" ∈ w.names :=
    ⟨_, rfl, by decide, by decide⟩
  obtain ⟨b, hb, check, w, hw, hu⟩ := made
  have known := all [tupleAndVariants] withSumForTuple _ b rfl (by decide) unflagged hb check w hw
    "u" hu
  revert known
  decide

end TypeDomains
