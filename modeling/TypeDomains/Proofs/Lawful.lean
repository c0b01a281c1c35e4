import TypeDomains.Proofs.Naming

/-!
# Lawful domains

The rules of a domain said without the order in which they are looked at, and the check that
decides them (`check_ok_iff_lawful`).
-/

namespace TypeDomains

/-- What an element may refer to: the built-in types and the domain's own, but no variant. -/
def Domain.typeNames (d : Domain) : List String :=
  Builtin.all.map Builtin.tag ++ d.types.map DataType.tag

/-- Nothing stands behind a variadic element. -/
def VariadicLast (es : List Element) : Prop :=
  ∀ before e after, es = before ++ e :: after → e.type.arity.isVariadic → after = []

def Element.IsOptionalIon (e : Element) : Prop :=
  e.type.arity = .optional ∧ e.type.name = Builtin.ion.tag

structure Domain.Lawful (d : Domain) : Prop where
  names : d.names.Nodup
  identifiers : ∀ t ∈ d.tuples, (t.elements.map Element.identifier).Nodup
  fields : ∀ t ∈ d.tuples, t.kind = .record → (t.elements.map Element.tag).Nodup
  sums : ∀ s, .sum s ∈ d.types → s.variants ≠ []
  records : ∀ t ∈ d.tuples, t.kind = .record → t.elements ≠ []
  references : ∀ t ∈ d.tuples, ∀ e ∈ t.elements, e.type.name ∈ d.typeNames
  order : ∀ t ∈ d.tuples, VariadicLast t.elements
  ions : ∀ t ∈ d.tuples, ∀ e ∈ t.elements, ¬e.IsOptionalIon

/-! ## References -/

theorem DataType.exists_type_binding {l : Location} {t : DataType} {name : String} :
    (∃ b ∈ t.bindings l, b.name = name ∧ b.kind.isType) ↔ t.tag = name := by
  cases t <;> simp [bindings, Tuple.binding, tag, NameKind.isType]

theorem Domain.mem_typeNames {d : Domain} {name : String} :
    name ∈ d.typeNames ↔ ∃ b ∈ d.bindings, b.name = name ∧ b.kind.isType := by
  have types : name ∈ d.types.map DataType.tag ↔
      ∃ b ∈ d.types.flatMap (DataType.bindings d.location), b.name = name ∧ b.kind.isType := by
    simp only [List.mem_map, List.mem_flatMap, ← DataType.exists_type_binding (l := d.location)]
    grind
  simp only [typeNames, bindings, List.mem_append, types, or_and_right, exists_or]
  simp [Builtin.binding, NameKind.isType]

namespace NameTable

theorem lookup?_eq_some_iff {f : Frame} (hf : Distinct f) {name : String} {b : Binding} :
    (⟨f.reverse, []⟩ : NameTable).lookup? name = some b ↔ b ∈ f ∧ b.name = name := by
  have found {c : Binding} (h : f.reverse.find? (·.name == name) = some c) :
      c ∈ f ∧ c.name = name :=
    ⟨by simpa using List.mem_of_find?_eq_some h, by simpa using List.find?_some h⟩
  constructor
  · exact found
  · rintro ⟨hb, hn⟩
    cases h : f.reverse.find? (·.name == name) with
    | none =>
      have := List.find?_eq_none.1 h b (by simpa using hb)
      simp [hn] at this
    | some c =>
      obtain ⟨hc, hcn⟩ := found h
      rw [List.inj_on_of_nodup_map hf hb hc (hn.trans hcn.symm)]
      exact h

end NameTable

theorem Element.checkReference_ok {d : Domain} (hd : d.names.Nodup) {t : Tuple} {e : Element} :
    e.checkReference ⟨d.bindings.reverse, []⟩ t = .ok () ↔ e.type.name ∈ d.typeNames := by
  rw [← d.map_name_bindings] at hd
  have lookup {b : Binding} : NameTable.lookup? ⟨d.bindings.reverse, []⟩ e.type.name = some b ↔
      b ∈ d.bindings ∧ b.name = e.type.name := NameTable.lookup?_eq_some_iff hd
  rw [Domain.mem_typeNames, checkReference]
  split
  · rename_i b hb
    obtain ⟨hb, hn⟩ := lookup.1 hb
    have same : ∀ c ∈ d.bindings, c.name = e.type.name → c = b := fun c hc hcn =>
      List.inj_on_of_nodup_map hd hc hb (hcn.trans hn.symm)
    constructor
    · intro h
      exact ⟨b, hb, hn, by by_contra hk; simp [hk] at h⟩
    · rintro ⟨c, hc, hcn, hk⟩
      simp [← same c hc hcn, hk]
  · rename_i hnone
    have absent : ∀ b ∈ d.bindings, b.name ≠ e.type.name := fun b hb hn => by
      rw [lookup.2 ⟨hb, hn⟩] at hnone
      simp at hnone
    constructor
    · intro h
      split at h <;> simp at h
    · rintro ⟨b, hb, hn, -⟩
      exact absurd hn (absent b hb)

/-! ## Tuples -/

theorem Element.checkOrder_ok {after : Bool} {e : Element} :
    e.checkOrder after = .ok () ↔ after = false := by
  unfold checkOrder
  cases after <;> cases e.type.arity <;> simp

theorem Element.checkIon_ok {e : Element} : e.checkIon = .ok () ↔ ¬e.IsOptionalIon := by
  by_cases h : e.IsOptionalIon
  · simp only [checkIon, h, not_true_eq_false, iff_false]
    simp [h.1, h.2]
  · simp only [checkIon, h, not_false_eq_true, iff_true]
    simp only [IsOptionalIon] at h
    simp [h]

theorem variadicLast_nil : VariadicLast [] := by
  intro before e after h
  simp at h

theorem variadicLast_cons {e : Element} {es : List Element} :
    VariadicLast (e :: es) ↔ (e.type.arity.isVariadic → es = []) ∧ VariadicLast es := by
  constructor
  · intro h
    refine ⟨h [] e es rfl, fun before f after hs => h (e :: before) f after ?_⟩
    rw [hs, List.cons_append]
  · rintro ⟨he, hes⟩ before f after hs hf
    cases before with
    | nil =>
      obtain ⟨rfl, rfl⟩ := List.cons.inj hs
      exact he hf
    | cons g before => exact hes before f after (List.cons.inj hs).2 hf

theorem Tuple.checkElements_ok {names : NameTable} {t : Tuple} {after : Bool}
    {es : List Element} :
    t.checkElements names after es = .ok () ↔
      (∀ e ∈ es, e.checkReference names t = .ok ()) ∧ (after → es = []) ∧ VariadicLast es ∧
      ∀ e ∈ es, ¬e.IsOptionalIon := by
  induction es generalizing after with
  | nil => simp [checkElements, variadicLast_nil]
  | cons e es ih =>
    simp only [checkElements, bind_unit_ok, ih, Element.checkOrder_ok, Element.checkIon_ok,
      variadicLast_cons, List.forall_mem_cons, Bool.or_eq_true]
    constructor
    · rintro ⟨hr, ha, hi, hrs, hafter, hv, his⟩
      exact ⟨⟨hr, hrs⟩, by simp [ha], ⟨fun he => hafter (.inr he), hv⟩, hi, his⟩
    · rintro ⟨⟨hr, hrs⟩, ha, ⟨he, hv⟩, hi, his⟩
      have ha : after = false := by simpa using ha
      exact ⟨hr, ha, hi, hrs, by simpa [ha] using he, hv, his⟩

theorem Tuple.check_ok {names : NameTable} {t : Tuple} :
    t.check names = .ok () ↔
      (t.kind = .record → t.elements ≠ []) ∧
      (∀ e ∈ t.elements, e.checkReference names t = .ok ()) ∧ VariadicLast t.elements ∧
      ∀ e ∈ t.elements, ¬e.IsOptionalIon := by
  unfold check
  split
  · rename_i h
    simp only [Bool.and_eq_true, decide_eq_true_eq, List.isEmpty_iff] at h
    simp [h]
  · rename_i h
    simp only [Bool.and_eq_true, decide_eq_true_eq, List.isEmpty_iff, not_and] at h
    simp only [checkElements_ok, Bool.false_eq_true, false_implies, true_and]
    exact ⟨fun hes => ⟨h, hes⟩, fun hes => hes.2⟩

theorem DataType.check_ok {names : NameTable} {t : DataType} :
    t.check names = .ok () ↔
      (∀ s, t = .sum s → s.variants ≠ []) ∧ ∀ u ∈ t.tuples, u.check names = .ok () := by
  cases t with
  | builtin b => simp [check, tuples]
  | tuple t => simp [check, tuples]
  | sum s =>
    simp only [check, tuples, sum.injEq, forall_eq']
    split
    · rename_i h
      simp [List.isEmpty_iff.1 h]
    · rename_i h
      rw [forM_ok, and_iff_right]
      simpa using h

/-! ## Domains -/

theorem Domain.check_ok {d : Domain} :
    d.check = .ok () ↔
      ((∀ t ∈ d.tuples, t.NamesDistinct) ∧ d.names.Nodup) ∧
      (∀ s, .sum s ∈ d.types → s.variants ≠ []) ∧
      ∀ t ∈ d.tuples, t.check ⟨d.bindings.reverse, []⟩ = .ok () := by
  have types (names : NameTable) : d.types.forM (DataType.check names) = .ok () ↔
      (∀ s, .sum s ∈ d.types → s.variants ≠ []) ∧ ∀ t ∈ d.tuples, t.check names = .ok () := by
    simp only [forM_ok, DataType.check_ok, forall_mem_tuples]
    constructor
    · intro h
      exact ⟨fun s hs => (h _ hs).1 s rfl, fun type ht => (h type ht).2⟩
    · rintro ⟨hs, ht⟩ type hm
      exact ⟨fun s hts => hs s (hts ▸ hm), ht type hm⟩
  simp only [check, bind_ok, NameTable.ofDomain_ok, types]
  constructor
  · rintro ⟨_, ⟨hn, hd, rfl⟩, h⟩
    exact ⟨⟨hn, hd⟩, h⟩
  · rintro ⟨⟨hn, hd⟩, h⟩
    exact ⟨_, ⟨hn, hd, rfl⟩, h⟩

theorem Domain.lawful_of_check {d : Domain} (h : d.check = .ok ()) : d.Lawful := by
  obtain ⟨⟨distinct, names⟩, sums, tuples⟩ := check_ok.1 h
  simp only [Tuple.check_ok, Element.checkReference_ok names] at tuples
  exact {
    names := names
    identifiers := fun t ht => (distinct t ht).identifiers
    fields := fun t ht => (distinct t ht).fields
    sums := sums
    records := fun t ht => (tuples t ht).1
    references := fun t ht => (tuples t ht).2.1
    order := fun t ht => (tuples t ht).2.2.1
    ions := fun t ht => (tuples t ht).2.2.2 }

theorem Domain.Lawful.check {d : Domain} (h : d.Lawful) : d.check = .ok () := by
  refine check_ok.2 ⟨⟨fun t ht => ⟨h.identifiers t ht, h.fields t ht⟩, h.names⟩, h.sums, ?_⟩
  intro t ht
  simp only [Tuple.check_ok, Element.checkReference_ok h.names]
  exact ⟨h.records t ht, h.references t ht, h.order t ht, h.ions t ht⟩

/-- **The check decides the rules.** A domain passes, read or built by hand, exactly if it keeps
every one of them. -/
theorem Domain.check_ok_iff_lawful (d : Domain) : d.check = .ok () ↔ d.Lawful :=
  ⟨lawful_of_check, Lawful.check⟩

end TypeDomains
