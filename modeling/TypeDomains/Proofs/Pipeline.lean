import Mathlib.Data.List.Flatten
import Mathlib.Data.List.Induction
import TypeDomains.Compilation
import TypeDomains.Proofs.Alterations
import TypeDomains.Proofs.Lawful

/-!
# The domains of a universe

Which domains a universe comes to, said of all of them at once and without the order in which they
are made (`Universe.domains_ok_iff_builds`): one for each definition, which makes it from those
before it, all of different tags and each within the rules. So every element of theirs refers to
one type, and no flag is set that the universe does not set.
-/

namespace TypeDomains

namespace Statement

/-- Whether the statement defines a domain. A transform does not. -/
def isDefinition : Statement → Bool
  | transform _ => false
  | _ => true

/-- Behind the domains `earlier`, the statement defines `d`. -/
def Defines (earlier : List Domain) : Statement → Domain → Prop
  | domain c, d => c = d
  | permutation p, d => p.toDomain earlier = .ok d
  | transform _, _ => False

def definitions (xs : List Statement) : List Statement := xs.filter isDefinition

/-- The statements define the domains, one after the other. -/
structure Builds (xs : List Statement) (ds : List Domain) : Prop where
  count : ds.length = (definitions xs).length
  tags : (ds.map Domain.tag).Nodup
  checked : ∀ d ∈ ds, d.check = .ok ()
  defined : ∀ (k : Nat) (x : Statement) (d : Domain), (definitions xs)[k]? = some x →
    ds[k]? = some d → x.Defines (ds.take k) d

variable {x : Statement} {xs : List Statement} {d : Domain} {ds ds' : List Domain}

/-! ## One statement -/

theorem Defines.isDefinition (h : x.Defines ds d) : x.isDefinition = true := by
  cases x with
  | domain _ | permutation _ => rfl
  | transform t => exact h.elim

theorem defines?_ok {o : Option Domain} : x.defines? ds = .ok o ↔
    (x.isDefinition = false ∧ o = none) ∨ ∃ d, x.Defines ds d ∧ o = some d := by
  unfold defines? Defines
  cases x with
  | domain c => simp [Statement.isDefinition, eq_comm]
  | permutation p => simp only [map_ok, Statement.isDefinition, Bool.true_eq_false, false_and,
      false_or, eq_comm (a := o)]
  | transform t => simp [Statement.isDefinition, eq_comm]

theorem isSome_find?_iff {tag : String} :
    (Domain.find? ds tag).isSome ↔ tag ∈ ds.map Domain.tag := by
  simp [Domain.find?]

/-- A transform changes nothing, and a definition goes through if its domain is new and within the
rules. -/
theorem define_ok : x.define ds = .ok ds' ↔
    (x.isDefinition = false ∧ ds = ds') ∨
    ∃ d, x.Defines ds d ∧ d.tag ∉ ds.map Domain.tag ∧ d.check = .ok () ∧ ds ++ [d] = ds' := by
  have put (d : Domain) :
      (if (Domain.find? ds d.tag).isSome then .error ⟨.domainDefinedTwice d.tag, x.location⟩
        else do d.check; return ds ++ [d] : Except DomainError (List Domain)) = .ok ds' ↔
      d.tag ∉ ds.map Domain.tag ∧ d.check = .ok () ∧ ds ++ [d] = ds' := by
    by_cases known : d.tag ∈ ds.map Domain.tag
    · simp [isSome_find?_iff.2 known, known]
    · have new : ¬(Domain.find? ds d.tag).isSome := isSome_find?_iff.not.2 known
      rw [if_neg new, bind_unit_ok, pure_ok, and_iff_right known]
  simp only [define, bind_ok, defines?_ok]
  constructor
  · rintro ⟨_, ⟨transform, rfl⟩ | ⟨d, defines, rfl⟩, h⟩
    · exact .inl ⟨transform, pure_ok.1 h⟩
    · exact .inr ⟨d, defines, (put d).1 h⟩
  · rintro (⟨transform, rfl⟩ | ⟨d, defines, h⟩)
    · exact ⟨none, .inl ⟨transform, rfl⟩, rfl⟩
    · exact ⟨some d, .inr ⟨d, defines, rfl⟩, (put d).2 h⟩

/-! ## All statements -/

theorem builds_nil : Builds [] ds ↔ ds = [] := by
  constructor
  · intro h
    exact List.eq_nil_of_length_eq_zero h.count
  · rintro rfl
    exact ⟨rfl, by simp, by simp, by simp [definitions]⟩

theorem builds_concat_transform (hx : x.isDefinition = false) :
    Builds (xs ++ [x]) ds ↔ Builds xs ds := by
  have same : definitions (xs ++ [x]) = definitions xs := by simp [definitions, hx]
  constructor
  · rintro ⟨count, tags, checked, defined⟩
    exact ⟨same ▸ count, tags, checked, same ▸ defined⟩
  · rintro ⟨count, tags, checked, defined⟩
    exact ⟨same ▸ count, tags, checked, same ▸ defined⟩

theorem Builds.concat (h : Builds xs ds) (defines : x.Defines ds d)
    (new : d.tag ∉ ds.map Domain.tag) (check : d.check = .ok ()) :
    Builds (xs ++ [x]) (ds ++ [d]) := by
  have split : definitions (xs ++ [x]) = definitions xs ++ [x] := by
    simp [definitions, defines.isDefinition]
  constructor
  case count => simp [split, h.count]
  case tags =>
    rw [List.map_append, List.map_singleton, ← List.concat_eq_append]
    exact h.tags.concat new
  case checked => exact List.forall_mem_append.2 ⟨h.checked, List.forall_mem_singleton.2 check⟩
  case defined =>
    intro k y e hy he
    rw [split] at hy
    by_cases old : k < ds.length
    · rw [List.getElem?_append_left (h.count ▸ old)] at hy
      rw [List.getElem?_append_left old] at he
      rw [List.take_append_of_le_length (by omega)]
      exact h.defined k y e hy he
    · have last : k = ds.length := by
        have := (List.getElem?_eq_some_iff.1 he).1
        rw [List.length_append, List.length_singleton] at this
        omega
      subst last
      obtain rfl : x = y := by simpa [h.count] using hy
      obtain rfl : d = e := by simpa using he
      simpa using defines

theorem Builds.of_concat (h : Builds (xs ++ [x]) ds') (hx : x.isDefinition = true) :
    ∃ ds d, ds' = ds ++ [d] ∧ Builds xs ds ∧ x.Defines ds d ∧ d.tag ∉ ds.map Domain.tag ∧
      d.check = .ok () := by
  have split : definitions (xs ++ [x]) = definitions xs ++ [x] := by simp [definitions, hx]
  have count := h.count
  rw [split, List.length_append, List.length_singleton] at count
  obtain rfl | ⟨ds, d, rfl⟩ := ds'.eq_nil_or_concat'
  · simp at count
  have count : ds.length = (definitions xs).length := by simpa using count
  have tags := h.tags
  rw [List.map_append, List.map_singleton, ← List.concat_eq_append, List.nodup_concat] at tags
  obtain ⟨checked, check⟩ := List.forall_mem_append.1 h.checked
  have defined := h.defined
  rw [split] at defined
  have defines : x.Defines ds d := by
    have := defined ds.length x d (by simp [count]) (by simp)
    simpa using this
  refine ⟨ds, d, rfl, ⟨count, tags.2, checked, ?_⟩, defines, tags.1, by simpa using check⟩
  intro k y e hy he
  have old : k < ds.length := (List.getElem?_eq_some_iff.1 he).1
  have := defined k y e
  rw [List.getElem?_append_left (count ▸ old), List.getElem?_append_left old,
    List.take_append_of_le_length (by omega)] at this
  exact this hy he

/-- The run over the statements: what one of them does, said of all. -/
theorem foldlM_define_ok : xs.foldlM define [] = .ok ds ↔ Builds xs ds := by
  induction xs using List.reverseRecOn generalizing ds with
  | nil => simp [builds_nil, pure, Except.pure, eq_comm]
  | append_singleton xs x ih =>
    simp only [List.foldlM_append, List.foldlM_cons, List.foldlM_nil, bind_ok, pure_ok,
      exists_eq_right, ih, define_ok]
    constructor
    · rintro ⟨before, built, ⟨transform, rfl⟩ | ⟨d, defines, new, check, rfl⟩⟩
      · exact (builds_concat_transform transform).2 built
      · exact built.concat defines new check
    · intro h
      cases hx : x.isDefinition with
      | false => exact ⟨ds, (builds_concat_transform hx).1 h, .inl ⟨rfl, rfl⟩⟩
      | true =>
        obtain ⟨before, d, rfl, built, step⟩ := h.of_concat hx
        exact ⟨before, built, .inr ⟨d, step.1, step.2.1, step.2.2, rfl⟩⟩

end Statement

/-! ## What the definitions share -/

/-- The types that the statement itself declares have the property `P`, and the variants that it
adds to sums have the property `V`. -/
def Statement.Declares (P : DataType → Prop) (V : Tuple → Prop) : Statement → Prop
  | domain d => ∀ t ∈ d.types, P t
  | permutation p => (∀ t ∈ p.included, P t) ∧ ∀ c ∈ p.sums, ∀ v ∈ c.added, V v
  | transform _ => True

theorem Universe.domains_ok {u : Universe} {ds : List Domain} :
    u.domains = .ok ds ↔ u.statements ≠ [] ∧ Statement.Builds u.statements ds := by
  unfold domains
  by_cases empty : u.statements = []
  · simp [empty]
  · rw [if_neg (by simpa using empty), Statement.foldlM_define_ok, and_iff_right empty]

/-- What all declarations share, all domains share, however many permutations lie between. -/
theorem Universe.forall_of_domains {P : DataType → Prop} {V : Tuple → Prop} {u : Universe}
    {ds : List Domain} (hPV : Variantwise P V) (h : u.domains = .ok ds)
    (hu : ∀ x ∈ u.statements, x.Declares P V) : ∀ d ∈ ds, ∀ t ∈ d.types, P t := by
  have run := Statement.foldlM_define_ok.2 (domains_ok.1 h).2
  refine of_foldlM (P := fun ds => ∀ d ∈ ds, ∀ t ∈ d.types, P t) run (by simp) ?_
  intro x hx before after hbefore step
  rcases Statement.define_ok.1 step with ⟨-, rfl⟩ | ⟨d, defines, -, -, rfl⟩
  · exact hbefore
  · refine List.forall_mem_append.2 ⟨hbefore, List.forall_mem_singleton.2 ?_⟩
    have declared := hu x hx
    cases x with
    | domain c =>
      obtain rfl : c = d := defines
      exact declared
    | permutation p =>
      exact Permutation.forall_of_toDomain hPV defines hbefore declared.1 declared.2
    | transform t => exact defines.elim

/-! ## Flags -/

def DataType.Unflagged (t : DataType) : Prop :=
  t.different = false ∧ ∀ v ∈ t.tuples, v.different = false

def Domain.Unflagged (d : Domain) : Prop := ∀ t ∈ d.types, t.Unflagged

/-- No flag is set in any declaration. -/
def Universe.Unflagged (u : Universe) : Prop :=
  ∀ x ∈ u.statements, x.Declares DataType.Unflagged (·.different = false)

theorem DataType.variantwise_unflagged : Variantwise Unflagged (·.different = false) where
  variants _ h := h.2
  exchange _ _ h hvs := ⟨h.1, hvs⟩

/-! ## References -/

theorem DataType.tag_sublist_names (t : DataType) : [t.tag].Sublist t.names := by
  cases t <;> simp [tag, names]

namespace Domain

variable {d : Domain}

theorem map_tag_allTypes (d : Domain) : d.allTypes.map DataType.tag = d.typeNames := by
  simp only [allTypes, typeNames, List.map_append, List.map_map]
  rfl

theorem Lawful.nodup_typeNames (h : d.Lawful) : d.typeNames.Nodup := by
  have types : (d.types.map DataType.tag).Sublist (d.types.flatMap DataType.names) := by
    rw [List.map_eq_flatMap]
    exact List.Sublist.flatMap_right d.types fun t _ => DataType.tag_sublist_names t
  exact h.names.sublist (types.append_left _)

/-- Whatever an element refers to is a type of the domain, and no other has its tag. -/
theorem Lawful.resolves (h : d.Lawful) {t : Tuple} (ht : t ∈ d.tuples) {e : Element}
    (he : e ∈ t.elements) : ∃ type, d.type? e.type.name = some type ∧
      d.allTypes.filter (·.tag == e.type.name) = [type] := by
  have nodup := h.nodup_typeNames
  have known := h.references t ht e he
  rw [← map_tag_allTypes] at nodup known
  obtain ⟨type, member, tag⟩ := List.mem_map.1 known
  have only := filter_eq_singleton nodup member
  rw [tag] at only
  refine ⟨type, ?_, only⟩
  rw [type?, ← List.head?_filter, only, List.head?_cons]

end Domain

/-- **The domains of a universe.** A universe comes to these domains exactly if it says anything
and its definitions make them, each from those before it, with distinct tags and within the rules.
Then no flag is set that it does not set itself, and each element refers to exactly one type. -/
theorem Universe.domains_ok_iff_builds (u : Universe) (ds : List Domain) :
    (u.domains = .ok ds ↔ u.statements ≠ [] ∧ Statement.Builds u.statements ds) ∧
    (u.domains = .ok ds →
      (u.Unflagged → ∀ d ∈ ds, d.Unflagged) ∧
      ∀ d ∈ ds, ∀ t ∈ d.tuples, ∀ e ∈ t.elements, ∃ type, d.type? e.type.name = some type ∧
        d.allTypes.filter (·.tag == e.type.name) = [type]) := by
  refine ⟨domains_ok, ?_⟩
  intro h
  have built := (domains_ok.1 h).2
  refine ⟨fun unflagged => forall_of_domains DataType.variantwise_unflagged h unflagged, ?_⟩
  intro d hd t ht e he
  have lawful := Domain.lawful_of_check (built.checked d hd)
  exact lawful.resolves ht he

/-- A domain, one more that adds a type to it, and a third that takes that type away again. -/
def chained : Universe :=
  ⟨[.domain ⟨"a", [.tuple ⟨"p", .product, [⟨"i", "", ⟨"int", .required, .unknown⟩, .unknown⟩],
      false, .unknown⟩], .unknown⟩,
    .permutation ⟨"b", "a", [], [.tuple ⟨"q", .product,
      [⟨"j", "", ⟨"p", .optional, .unknown⟩, .unknown⟩], false, .unknown⟩], [], .unknown⟩,
    .permutation ⟨"c", "b", [⟨"q", .unknown⟩], [], [], .unknown⟩]⟩

theorem domains_ok_iff_builds_chained : ∃ ds, chained.domains = .ok ds ∧
    ds.map Domain.tag = ["a", "b", "c"] ∧ Statement.Builds chained.statements ds ∧
      ∀ d ∈ ds, d.Unflagged := by
  have built : ∃ ds, chained.domains = .ok ds ∧ ds.map Domain.tag = ["a", "b", "c"] := ⟨_, rfl, rfl⟩
  obtain ⟨ds, hds, tags⟩ := built
  have unflagged : chained.Unflagged := by
    simp [Universe.Unflagged, Statement.Declares, chained, DataType.Unflagged, DataType.different,
      DataType.tuples]
  obtain ⟨iff, rest⟩ := Universe.domains_ok_iff_builds chained ds
  exact ⟨ds, hds, tags, (iff.1 hds).2, (rest hds).1 unflagged⟩

end TypeDomains
