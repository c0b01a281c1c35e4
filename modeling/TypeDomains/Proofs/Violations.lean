import TypeDomains.Proofs.Lawful

/-!
# Violations

All that a domain does against the rules, as a list: what is wrong with its names before all else,
and both parts in the order in which the domain is written. The list is empty exactly if the domain
keeps the rules (`Domain.violations_eq_nil_iff`), and the check reports its first entry
(`Domain.check_error_iff`).
-/

namespace TypeDomains

/-! ## Lists of complaints -/

section

variable {ε α β : Type}

/-- What there is to say of each element, given those before it. -/
def walk (say : List α → α → List β) : List α → List β
  | [] => []
  | a :: as => say [] a ++ walk (fun before => say (a :: before)) as

/-- The complaint `e`, if there is cause for it. -/
def complain (cause : Prop) [Decidable cause] (e : ε) : List ε := if cause then [e] else []

/-- Fails with the first of the complaints. -/
def firstOf : List ε → Except ε Unit
  | [] => .ok ()
  | e :: _ => .error e

theorem firstOf_error {es : List ε} {e : ε} : firstOf es = .error e ↔ es.head? = some e := by
  cases es <;> simp [firstOf]

theorem firstOf_ok {es : List ε} : firstOf es = .ok () ↔ es = [] := by
  cases es <;> simp [firstOf]

theorem firstOf_append (es fs : List ε) :
    firstOf (es ++ fs) = firstOf es >>= fun _ => firstOf fs := by
  cases es <;> rfl

theorem firstOf_complain (cause : Prop) [Decidable cause] (e : ε) :
    firstOf (complain cause e) = if cause then .error e else .ok () := by
  unfold complain
  split <;> rfl

theorem forM_firstOf (f : α → List ε) (as : List α) :
    as.forM (fun a => firstOf (f a)) = firstOf (as.flatMap f) := by
  induction as with
  | nil => rfl
  | cons a as ih =>
    rw [List.flatMap_cons, firstOf_append, ← ih]
    rfl

end

/-! ## Violations of the rules -/

def DataType.variants : DataType → List Tuple
  | sum s => s.variants
  | builtin _ | tuple _ => []

def Domain.variants (d : Domain) : List Tuple := d.types.flatMap DataType.variants

/-- What is wrong with an element of that arity behind a variadic one. -/
def Arity.misplaced : Arity → String → DomainFault
  | required => .requiredAfterVariadic
  | optional => .optionalAfterVariadic
  | variadic _ => .secondVariadic

instance (e : Element) : Decidable e.IsOptionalIon := inferInstanceAs (Decidable (_ ∧ _))

namespace Element

/-- Against the identifiers and field tags in the tuple before it. -/
def nameViolations (kind : TupleKind) (identifiers fields : List String) (e : Element) :
    List DomainError :=
  complain (e.identifier ∈ identifiers) ⟨.nameUsedTwice e.identifier, e.location⟩ ++
    complain (kind = .record ∧ e.tag ∈ fields) ⟨.nameUsedTwice e.tag, e.location⟩

/-- A name that is none of a type is known to the domain as a variant, or to the tuple as an
identifier, or not at all. -/
def referenceViolations (d : Domain) (t : Tuple) (e : Element) : List DomainError :=
  if e.type.name ∈ d.typeNames then []
  else if e.type.name ∈ d.variants.map Tuple.tag ∨
      e.type.name ∈ t.elements.map Element.identifier then
    [⟨.notAType e.type.name, e.type.location⟩]
  else [⟨.undefinedType e.type.name, e.type.location⟩]

/-- What an element refers to, what it stands behind, and what it may not be. -/
def violations (d : Domain) (t : Tuple) (before : List Element) (e : Element) :
    List DomainError :=
  e.referenceViolations d t ++
    complain (∃ f ∈ before, f.type.arity.isVariadic)
      ⟨e.type.arity.misplaced e.identifier, e.location⟩ ++
    complain e.IsOptionalIon ⟨.optionalIon e.identifier, e.location⟩

end Element

namespace Tuple

def elementViolations (t : Tuple) : List DomainError :=
  walk (fun before => Element.nameViolations t.kind (before.map Element.identifier)
    (before.map Element.tag)) t.elements

/-- Against the names in the domain before it, and between its own elements. -/
def nameViolations (names : List String) (t : Tuple) : List DomainError :=
  complain (t.tag ∈ names) ⟨.nameUsedTwice t.tag, t.location⟩ ++ t.elementViolations

def violations (d : Domain) (t : Tuple) : List DomainError :=
  complain (t.kind = .record ∧ t.elements = []) ⟨.emptyRecord t.tag, t.location⟩ ++
    walk (Element.violations d t) t.elements

end Tuple

namespace DataType

/-- A built-in type among those of the domain is blamed on the domain itself. -/
def nameViolations (domain : Location) (names : List String) : DataType → List DomainError
  | builtin b => complain (b.tag ∈ names) ⟨.nameUsedTwice b.tag, domain⟩
  | tuple t => t.nameViolations names
  | sum s =>
    complain (s.tag ∈ names) ⟨.nameUsedTwice s.tag, s.location⟩ ++
      walk (fun before => Tuple.nameViolations (names ++ s.tag :: before.map Tuple.tag)) s.variants

def violations (d : Domain) : DataType → List DomainError
  | builtin _ => []
  | tuple t => t.violations d
  | sum s =>
    complain (s.variants = []) ⟨.emptySum s.tag, s.location⟩ ++
      s.variants.flatMap (Tuple.violations d)

end DataType

namespace Domain

def nameViolations (d : Domain) : List DomainError :=
  walk (fun before => DataType.nameViolations d.location
    (Builtin.all.map Builtin.tag ++ before.flatMap DataType.names)) d.types

/-- All violations of the rules, those of names before all others. -/
def violations (d : Domain) : List DomainError :=
  d.nameViolations ++ d.types.flatMap (DataType.violations d)

end Domain

/-! ## The naming pass -/

namespace NameTable

/-- The step enters `bs` in the domain's frame, or else fails with the first of the complaints that
there are against the names entered before. The frame has the last name in front. -/
def Reports (step : NameTable → Except DomainError NameTable) (bs : Frame)
    (complaints : List String → List DomainError) : Prop :=
  ∀ f : Frame, step ⟨f, []⟩ =
    (firstOf (complaints (f.reverse.map Binding.name))).map fun _ => ⟨bs.reverse ++ f, []⟩

theorem Reports.enter (name : String) (kind : NameKind) (l : Location) :
    Reports (fun t => t.enter name kind l) [⟨name, kind, l⟩]
      fun names => complain (name ∈ names) ⟨.nameUsedTwice name, l⟩ := by
  intro f
  have known : name ∈ f.reverse.map Binding.name ↔ binds f name := by
    simp [binds]
  simp only [firstOf_complain, known, NameTable.enter, define?]
  cases binds f name <;> rfl

theorem Reports.comp {g k : NameTable → Except DomainError NameTable} {bs cs : Frame}
    {p q : List String → List DomainError} (hg : Reports g bs p) (hk : Reports k cs q) :
    Reports (fun t => g t >>= k) (bs ++ cs)
      fun names => p names ++ q (names ++ bs.map Binding.name) := by
  intro f
  have names : (bs.reverse ++ f).reverse.map Binding.name =
      f.reverse.map Binding.name ++ bs.map Binding.name := by
    rw [List.reverse_append, List.reverse_reverse, List.map_append]
  change g ⟨f, []⟩ >>= k = _
  rw [hg f, firstOf_append]
  cases p (f.reverse.map Binding.name) with
  | cons e es => rfl
  | nil =>
    change k ⟨bs.reverse ++ f, []⟩ = _
    rw [hk, names, List.reverse_append, List.append_assoc]
    rfl

theorem Reports.foldlM {α : Type} {g : NameTable → α → Except DomainError NameTable}
    {bs : α → Frame} {p : α → List String → List DomainError}
    (h : ∀ a, Reports (fun t => g t a) (bs a) (p a)) (as : List α) :
    Reports (fun t => as.foldlM g t) (as.flatMap bs) fun names =>
      walk (fun before a => p a (names ++ (before.flatMap bs).map Binding.name)) as := by
  induction as with
  | nil =>
    intro f
    rfl
  | cons a as ih =>
    intro f
    have whole := (h a).comp ih f
    simpa only [walk, List.foldlM_cons, List.flatMap_cons, List.flatMap_nil, List.map_nil,
      List.append_nil, List.map_append, List.append_assoc] using whole

/-- The frame `f` holds the identifiers of the elements before `es`, and `fields` their tags. -/
theorem enterElements_eq (kind : TupleKind) (d f : Frame) (fs : List Frame) (fields : List String)
    (es : List Element) : enterElements kind ⟨d, f :: fs⟩ fields es =
      (firstOf (walk (fun before => Element.nameViolations kind
        (f.reverse.map Binding.name ++ before.map Element.identifier)
        (fields.reverse ++ before.map Element.tag)) es)).map
      fun _ => ⟨d, ((es.map Element.binding).reverse ++ f) :: fs⟩ := by
  induction es generalizing f fields with
  | nil => rfl
  | cons e es ih =>
    have identifiers : e.identifier ∈ f.reverse.map Binding.name ↔ binds f e.identifier := by
      simp [binds]
    have tags : e.tag ∈ fields.reverse ↔ fields.contains e.tag := by simp
    rw [enterElements, walk, Element.nameViolations, firstOf_append, firstOf_append,
      firstOf_complain, firstOf_complain]
    simp only [List.map_nil, List.append_nil, identifiers, tags, NameTable.enter, define?]
    cases binds f e.identifier with
    | true => rfl
    | false =>
      simp only [Bool.false_eq_true, Bool.and_eq_true, decide_eq_true_eq, ↓reduceIte]
      by_cases again : kind = .record ∧ fields.contains e.tag
      · simp only [again, and_self, ↓reduceIte]
        rfl
      · simp only [again, ↓reduceIte]
        have rest := ih (⟨e.identifier, .element, e.location⟩ :: f) (e.tag :: fields)
        simp only [List.reverse_cons, List.map_append, List.map_cons, List.map_nil,
          List.append_assoc, List.singleton_append] at rest ⊢
        exact rest

theorem Reports.enterTuple (kind : NameKind) (tuple : Tuple) :
    Reports (fun t => t.enterTuple kind tuple) [tuple.binding kind]
      fun names => tuple.nameViolations names := by
  have elements : Reports
      (fun t => do return (← enterElements tuple.kind t.push [] tuple.elements).pop) []
      fun _ => tuple.elementViolations := by
    intro f
    change enterElements tuple.kind ⟨f, [[]]⟩ [] tuple.elements >>= _ = _
    rw [enterElements_eq]
    change (firstOf tuple.elementViolations).map _ >>= _ = _
    cases firstOf tuple.elementViolations <;> rfl
  exact (Reports.enter tuple.tag kind tuple.location).comp elements

theorem Reports.enterType (l : Location) (type : DataType) :
    Reports (fun t => t.enterType l type) (type.bindings l)
      fun names => type.nameViolations l names := by
  cases type with
  | builtin b => exact Reports.enter b.tag .type l
  | tuple t => exact Reports.enterTuple .type t
  | sum s =>
    have tags (before : List Tuple) :
        (before.map (Tuple.binding .variant)).map Binding.name = before.map Tuple.tag :=
      List.map_map
    have variants := Reports.foldlM (Reports.enterTuple .variant) s.variants
    have whole := (Reports.enter s.tag .type s.location).comp variants
    simp only [← List.map_eq_flatMap, tags, List.map_cons, List.map_nil, List.append_assoc,
      List.singleton_append] at whole
    exact whole

/-- The naming pass fails with the first violation of a rule on names. -/
theorem ofDomain_eq (d : Domain) : ofDomain d =
    (firstOf d.nameViolations).map fun _ => ⟨d.bindings.reverse, []⟩ := by
  have builtins : Builtin.all.foldlM (fun t b => t.enter b.tag .builtin d.location) empty =
      .ok ⟨(Builtin.all.map (Builtin.binding d.location)).reverse, []⟩ := rfl
  have types := Reports.foldlM (Reports.enterType d.location) d.types
    (Builtin.all.map (Builtin.binding d.location)).reverse
  rw [List.reverse_reverse, List.map_map, ← List.reverse_append] at types
  simp only [List.map_flatMap, DataType.map_name_bindings] at types
  rw [ofDomain, builtins]
  exact types

end NameTable

/-! ## The other rules -/

theorem DataType.names_eq (t : DataType) : t.names = t.tag :: t.variants.map Tuple.tag := by
  cases t <;> rfl

/-- A name of a domain is that of a type or of a variant. -/
theorem Domain.mem_names {d : Domain} {name : String} :
    name ∈ d.names ↔ name ∈ d.typeNames ∨ name ∈ d.variants.map Tuple.tag := by
  simp only [names, typeNames, variants, DataType.names_eq, List.mem_append, List.mem_flatMap,
    List.mem_cons, List.mem_map]
  grind

namespace Element

theorem checkOrder_eq (before : List Element) (e : Element) :
    e.checkOrder (before.any (·.type.arity.isVariadic)) =
      firstOf (complain (∃ f ∈ before, f.type.arity.isVariadic)
        ⟨e.type.arity.misplaced e.identifier, e.location⟩) := by
  rw [firstOf_complain, checkOrder]
  by_cases after : before.any (·.type.arity.isVariadic)
  · rw [if_pos (List.any_eq_true.1 after)]
    simp only [after, Bool.not_true, Bool.false_eq_true, ↓reduceIte]
    cases e.type.arity <;> rfl
  · rw [if_neg (mt List.any_eq_true.2 after)]
    simp [after]

theorem checkIon_eq (e : Element) :
    e.checkIon = firstOf (complain e.IsOptionalIon ⟨.optionalIon e.identifier, e.location⟩) := by
  rw [firstOf_complain, checkIon]
  simp only [Bool.and_eq_true, decide_eq_true_eq]
  rfl

end Element

section

variable {d : Domain} (hd : d.names.Nodup)
include hd

theorem Element.checkReference_eq (t : Tuple) (e : Element) :
    e.checkReference ⟨d.bindings.reverse, []⟩ t = firstOf (e.referenceViolations d t) := by
  by_cases known : e.type.name ∈ d.typeNames
  · rw [(checkReference_ok hd).2 known, referenceViolations, if_pos known]
    rfl
  have identifier : (t.element? e.type.name).isSome ↔
      e.type.name ∈ t.elements.map Element.identifier := by
    simp [Tuple.element?]
  have distinct : NameTable.Distinct d.bindings := by
    rwa [NameTable.Distinct, d.map_name_bindings]
  rw [referenceViolations, if_neg known, checkReference]
  split
  · rename_i b found
    obtain ⟨hb, name⟩ := (NameTable.lookup?_eq_some_iff distinct).1 found
    have kind : ¬b.kind.isType := fun type => known (Domain.mem_typeNames.2 ⟨b, hb, name, type⟩)
    have variant : e.type.name ∈ d.variants.map Tuple.tag := by
      refine (Domain.mem_names.1 ?_).resolve_left known
      rw [← d.map_name_bindings, ← name]
      exact List.mem_map_of_mem hb
    rw [if_neg kind, if_pos (.inl variant)]
    rfl
  · rename_i missing
    have variant : e.type.name ∉ d.variants.map Tuple.tag := by
      intro variant
      have named := Domain.mem_names.2 (.inr variant)
      rw [← d.map_name_bindings] at named
      obtain ⟨b, hb, name⟩ := List.mem_map.1 named
      rw [(NameTable.lookup?_eq_some_iff distinct).2 ⟨hb, name⟩] at missing
      cases missing
    simp only [variant, identifier, false_or]
    split <;> rfl

/-- The elements behind `before`. -/
theorem Tuple.checkElements_eq (t : Tuple) (before es : List Element) :
    t.checkElements ⟨d.bindings.reverse, []⟩ (before.any (·.type.arity.isVariadic)) es =
      firstOf (walk (fun more => Element.violations d t (before ++ more)) es) := by
  induction es generalizing before with
  | nil => rfl
  | cons e es ih =>
    have next : (before.any (·.type.arity.isVariadic) || e.type.arity.isVariadic) =
        (before ++ [e]).any (·.type.arity.isVariadic) := by
      simp
    rw [checkElements, next, ih, Element.checkReference_eq hd, Element.checkOrder_eq,
      Element.checkIon_eq, walk, Element.violations, List.append_nil]
    simp only [firstOf_append, List.append_assoc, List.singleton_append]

theorem Tuple.check_eq (t : Tuple) :
    t.check ⟨d.bindings.reverse, []⟩ = firstOf (t.violations d) := by
  have elements := t.checkElements_eq hd [] t.elements
  have empty : (t.kind = .record && t.elements.isEmpty) ↔ t.kind = .record ∧ t.elements = [] := by
    simp
  rw [violations, firstOf_append, firstOf_complain, check]
  simp only [empty]
  split
  · rfl
  · exact elements

theorem DataType.check_eq (t : DataType) :
    t.check ⟨d.bindings.reverse, []⟩ = firstOf (t.violations d) := by
  cases t with
  | builtin b => rfl
  | tuple t => exact t.check_eq hd
  | sum s =>
    have variants : Tuple.check ⟨d.bindings.reverse, []⟩ = fun v => firstOf (v.violations d) :=
      funext (Tuple.check_eq hd)
    rw [violations, firstOf_append, firstOf_complain, ← forM_firstOf, check, variants]
    simp only [List.isEmpty_iff]
    split <;> rfl

end

namespace Domain

theorem check_eq (d : Domain) : d.check = firstOf d.violations := by
  rw [violations, firstOf_append, check, NameTable.ofDomain_eq]
  cases named : firstOf d.nameViolations with
  | error e => rfl
  | ok _ =>
    -- Only distinct names make a look-up in the table find what the lists of names tell.
    have entered : NameTable.ofDomain d = .ok ⟨d.bindings.reverse, []⟩ := by
      rw [NameTable.ofDomain_eq, named]
      rfl
    have distinct : d.names.Nodup := (NameTable.ofDomain_ok.1 entered).2.1
    have types : DataType.check ⟨d.bindings.reverse, []⟩ = fun t => firstOf (t.violations d) :=
      funext (DataType.check_eq distinct)
    rw [← forM_firstOf, ← types]
    rfl

/-- **Nothing to complain about.** The list is empty exactly if the domain keeps the rules, so it
misses none of them. -/
theorem violations_eq_nil_iff {d : Domain} : d.violations = [] ↔ d.Lawful := by
  rw [← firstOf_ok, ← check_eq]
  exact ⟨lawful_of_check, Lawful.check⟩

/-- **The violation that is reported.** It is the first one, with its cause and its place. -/
theorem check_error_iff {d : Domain} {e : DomainError} :
    d.check = .error e ↔ d.violations.head? = some e := by
  rw [check_eq, firstOf_error]

/-- The tag that is there again comes before the type that is missing, wherever they stand. -/
example : violations ⟨"a", [.tuple ⟨"t", .product, [⟨"x", "", ⟨"u", .required, .unknown⟩, .unknown⟩],
      false, .unknown⟩, .tuple ⟨"t", .product, [], false, .unknown⟩], .unknown⟩ =
    [⟨.nameUsedTwice "t", .unknown⟩, ⟨.undefinedType "u", .unknown⟩] := by
  decide

end Domain

end TypeDomains
