import TypeDomains.Difference
import TypeDomains.DomainFault
import TypeDomains.Permuting
import TypeDomains.Proofs.Unlocated

/-!
# Relabelling

A model under other names and at other places. Names are only told apart, and places are only
carried along, so a permutation and a difference of relabelled domains are the relabelled
permutation and difference (`Permutation.toDomain_relabel`, `Domain.differenceFrom_relabel`).
Forgetting all locations is the relabelling `nowhere`.
-/

namespace TypeDomains

/-- Other names and other places. Two names stay two, and a built-in name stays what it is. The tag
of a part of a product names nothing, so it has a change of its own. -/
structure Relabelling where
  name : String → String
  part : String → String
  place : Location → Location
  injective : Function.Injective name
  part_injective : Function.Injective part
  builtin : ∀ b : Builtin, name b.tag = b.tag
  unknown : place .unknown = .unknown

namespace Relabelling

/-- The same names, and no places. -/
def nowhere : Relabelling where
  name := id
  part := id
  place _ := .unknown
  injective _ _ h := h
  part_injective _ _ h := h
  builtin _ := rfl
  unknown := rfl

/-- What becomes of the tag of an element. -/
def tag (r : Relabelling) : TupleKind → String → String
  | .product => r.part
  | .record => r.name

theorem tag_injective (r : Relabelling) (kind : TupleKind) : Function.Injective (r.tag kind) := by
  cases kind with
  | product => exact r.part_injective
  | record => exact r.injective

end Relabelling

/-! ## Relabelled models -/

def TypeRef.relabel (r : Relabelling) (t : TypeRef) : TypeRef :=
  ⟨r.name t.name, t.arity, r.place t.location⟩

def Element.relabel (r : Relabelling) (kind : TupleKind) (e : Element) : Element :=
  ⟨r.name e.identifier, r.tag kind e.tag, e.type.relabel r, r.place e.location⟩

def Tuple.relabel (r : Relabelling) (t : Tuple) : Tuple where
  tag := r.name t.tag
  kind := t.kind
  elements := t.elements.map (Element.relabel r t.kind)
  different := t.different
  location := r.place t.location

def Sum.relabel (r : Relabelling) (s : Sum) : Sum :=
  ⟨r.name s.tag, s.variants.map (Tuple.relabel r), s.different, r.place s.location⟩

def DataType.relabel (r : Relabelling) : DataType → DataType
  | builtin b => builtin b
  | tuple t => tuple (t.relabel r)
  | sum s => sum (s.relabel r)

def Domain.relabel (r : Relabelling) (d : Domain) : Domain :=
  ⟨r.name d.tag, d.types.map (DataType.relabel r), r.place d.location⟩

def Ident.relabel (r : Relabelling) (i : Ident) : Ident := ⟨r.name i.name, r.place i.location⟩

def SumChange.relabel (r : Relabelling) (c : SumChange) : SumChange where
  tag := r.name c.tag
  removed := c.removed.map (Ident.relabel r)
  added := c.added.map (Tuple.relabel r)
  location := r.place c.location

def Permutation.relabel (r : Relabelling) (p : Permutation) : Permutation where
  tag := r.name p.tag
  base := r.name p.base
  excluded := p.excluded.map (Ident.relabel r)
  included := p.included.map (DataType.relabel r)
  sums := p.sums.map (SumChange.relabel r)
  location := r.place p.location

def Transform.relabel (r : Relabelling) (t : Transform) : Transform :=
  ⟨r.name t.source, r.name t.destination, r.place t.location⟩

def Statement.relabel (r : Relabelling) : Statement → Statement
  | domain d => domain (d.relabel r)
  | permutation p => permutation (p.relabel r)
  | transform t => transform (t.relabel r)

def Universe.relabel (r : Relabelling) (u : Universe) : Universe :=
  ⟨u.statements.map (Statement.relabel r)⟩

/-! ## Nowhere -/

theorem Element.relabel_nowhere (kind : TupleKind) : relabel .nowhere kind = unlocated := by
  cases kind <;> rfl

theorem Tuple.relabel_nowhere : relabel .nowhere = unlocated := by
  funext t
  unfold relabel
  rw [Element.relabel_nowhere]
  rfl

theorem DataType.relabel_nowhere : relabel .nowhere = unlocated := by
  funext t
  cases t with
  | builtin b => rfl
  | tuple t => exact congrArg tuple (congrFun Tuple.relabel_nowhere t)
  | sum s =>
    unfold relabel Sum.relabel
    rw [Tuple.relabel_nowhere]
    rfl

theorem Domain.relabel_nowhere : relabel .nowhere = unlocated := by
  funext d
  unfold relabel
  rw [DataType.relabel_nowhere]
  rfl

theorem Permutation.relabel_nowhere : relabel .nowhere = unlocated := by
  have sums : SumChange.relabel .nowhere = SumChange.unlocated := by
    funext c
    unfold SumChange.relabel
    rw [Tuple.relabel_nowhere]
    rfl
  funext p
  unfold relabel
  rw [DataType.relabel_nowhere, sums]
  rfl

theorem Universe.relabel_nowhere : relabel .nowhere = unlocated := by
  have statements : Statement.relabel .nowhere = Statement.unlocated := by
    funext x
    cases x with
    | domain d => exact congrArg Statement.domain (congrFun Domain.relabel_nowhere d)
    | permutation p =>
      exact congrArg Statement.permutation (congrFun Permutation.relabel_nowhere p)
    | transform t => rfl
  unfold relabel unlocated
  rw [statements]

/-! ## Relabelled outcomes -/

/-- The fault with its names renamed. -/
def DomainFault.rename (f : String → String) : DomainFault → DomainFault
  | emptyUniverse => emptyUniverse
  | domainDefinedTwice name => domainDefinedTwice (f name)
  | nameUsedTwice name => nameUsedTwice (f name)
  | undefinedType name => undefinedType (f name)
  | notAType name => notAType (f name)
  | requiredAfterVariadic element => requiredAfterVariadic (f element)
  | optionalAfterVariadic element => optionalAfterVariadic (f element)
  | secondVariadic element => secondVariadic (f element)
  | optionalIon element => optionalIon (f element)
  | emptySum tag => emptySum (f tag)
  | emptyRecord tag => emptyRecord (f tag)
  | baseMissing domain base => baseMissing (f domain) (f base)
  | builtinExcluded name => builtinExcluded (f name)
  | excludedMissing name => excludedMissing (f name)
  | sumMissing name => sumMissing (f name)
  | notASum name => notASum (f name)
  | variantMissing sum variant => variantMissing (f sum) (f variant)
  | transformedMissing name => transformedMissing (f name)

theorem DomainFault.rename_id (fault : DomainFault) : fault.rename id = fault := by
  cases fault <;> rfl

namespace Relabelling

variable (r : Relabelling) {α α' β β' : Type} {f : α → α'} {g : β → β'}

def error (e : DomainError) : DomainError := ⟨e.cause.rename r.name, r.place e.location⟩

/-- The outcome with its error relabelled, and its result by `f`. -/
def outcome (f : α → β) : Except DomainError α → Except DomainError β
  | .ok a => .ok (f a)
  | .error e => .error (r.error e)

@[simp]
theorem outcome_ok (a : α) : r.outcome f (.ok a) = .ok (f a) := rfl

@[simp]
theorem outcome_pure (a : α) : r.outcome f (pure a) = pure (f a) := rfl

@[simp]
theorem outcome_error (e : DomainError) : r.outcome f (.error e) = .error (r.error e) := rfl

variable {r}

theorem outcome_bind {x : Except DomainError α} {x' : Except DomainError α'}
    {k : α → Except DomainError β} {k' : α' → Except DomainError β'} (hx : x' = r.outcome f x)
    (hk : ∀ a, k' (f a) = r.outcome g (k a)) : x' >>= k' = r.outcome g (x >>= k) := by
  rw [hx]
  cases x with
  | error e => rfl
  | ok a => exact hk a

theorem outcome_foldlM {step : α → β → Except DomainError α} {step' : α' → β' → Except DomainError α'}
    (h : ∀ s b, step' (f s) (g b) = r.outcome f (step s b)) (bs : List β) (s : α) :
    (bs.map g).foldlM step' (f s) = r.outcome f (bs.foldlM step s) := by
  induction bs generalizing s with
  | nil => rfl
  | cons b bs ih =>
    rw [List.map_cons, List.foldlM_cons, List.foldlM_cons]
    exact outcome_bind (h s b) ih

theorem outcome_mapM {k : α → Except DomainError β} {k' : α' → Except DomainError β'}
    (h : ∀ a, k' (f a) = r.outcome g (k a)) (as : List α) :
    (as.map f).mapM k' = r.outcome (List.map g) (as.mapM k) := by
  induction as with
  | nil => rfl
  | cons a as ih =>
    rw [List.map_cons, List.mapM_cons, List.mapM_cons]
    refine outcome_bind (h a) fun b => ?_
    exact outcome_bind ih fun bs => rfl

theorem outcome_forM {k : α → Except DomainError Unit} {k' : α' → Except DomainError Unit}
    (h : ∀ a, k' (f a) = r.outcome id (k a)) (as : List α) :
    (as.map f).forM k' = r.outcome id (as.forM k) := by
  induction as with
  | nil => rfl
  | cons a as ih =>
    rw [List.forM_eq_forM] at ih ⊢
    rw [List.map_cons, List.forM_eq_forM, List.forM_cons, List.forM_cons]
    exact outcome_bind (h a) fun _ => ih

/-! ## Names -/

@[simp]
theorem name_inj {a b : String} : r.name a = r.name b ↔ a = b := r.injective.eq_iff

@[simp]
theorem name_beq (a b : String) : (r.name a == r.name b) = (a == b) := by
  rw [Bool.eq_iff_iff, beq_iff_eq, beq_iff_eq, name_inj]

@[simp]
theorem name_eq_tag {a : String} {b : Builtin} : r.name a = b.tag ↔ a = b.tag := by
  have h : r.name a = r.name b.tag ↔ a = b.tag := name_inj
  rwa [r.builtin] at h

theorem isTag_name (a : String) : Builtin.isTag (r.name a) = Builtin.isTag a := by
  have tag (b : Builtin) : (b.tag == r.name a) = (b.tag == a) := by
    have h := name_beq (r := r) b.tag a
    rwa [r.builtin] at h
  simp only [Builtin.isTag, tag]

/-- What is looked for by its name is found at the same position. -/
theorem find?_relabel (tag : α → String) {f : α → α} (h : ∀ a, tag (f a) = r.name (tag a))
    (as : List α) (name : String) :
    (as.map f).find? (tag · == r.name name) = (as.find? (tag · == name)).map f := by
  simp only [List.find?_map, Function.comp_def, h, name_beq]

theorem any_relabel (tag : α → String) {f : α → α} (h : ∀ a, tag (f a) = r.name (tag a))
    (as : List α) (name : String) :
    (as.map f).any (tag · == r.name name) = as.any (tag · == name) := by
  simp only [List.any_map, Function.comp_def, h, name_beq]

theorem eraseP_relabel (tag : α → String) {f : α → α} (h : ∀ a, tag (f a) = r.name (tag a))
    (as : List α) (name : String) :
    (as.map f).eraseP (tag · == r.name name) = (as.eraseP (tag · == name)).map f := by
  simp only [List.eraseP_map, Function.comp_def, h, name_beq]

end Relabelling

variable {r : Relabelling}

@[simp]
theorem DataType.tag_relabel (t : DataType) : (t.relabel r).tag = r.name t.tag := by
  cases t with
  | builtin b => exact (r.builtin b).symm
  | tuple _ | sum _ => rfl

theorem Domain.find?_relabel (ds : List Domain) (tag : String) :
    Domain.find? (ds.map (Domain.relabel r)) (r.name tag) =
      (Domain.find? ds tag).map (Domain.relabel r) :=
  Relabelling.find?_relabel Domain.tag (fun _ => rfl) ds tag

/-! ## Permuting -/

theorem excludeType_relabel (types : List DataType) (i : Ident) :
    excludeType (types.map (DataType.relabel r)) (i.relabel r) =
      r.outcome (List.map (DataType.relabel r)) (excludeType types i) := by
  simp only [excludeType, Ident.relabel, Relabelling.isTag_name,
    Relabelling.any_relabel DataType.tag DataType.tag_relabel,
    Relabelling.eraseP_relabel DataType.tag DataType.tag_relabel]
  split
  · rfl
  split
  · rfl
  · rfl

theorem removeVariant_relabel (sum : String) (variants : List Tuple) (i : Ident) :
    removeVariant (r.name sum) (variants.map (Tuple.relabel r)) (i.relabel r) =
      r.outcome (List.map (Tuple.relabel r)) (removeVariant sum variants i) := by
  have tag (t : Tuple) : (t.relabel r).tag = r.name t.tag := rfl
  simp only [removeVariant, Ident.relabel, Relabelling.any_relabel Tuple.tag tag,
    Relabelling.eraseP_relabel Tuple.tag tag]
  split
  · rfl
  · rfl

namespace SumChange

theorem change_relabel (c : SumChange) (s : Sum) :
    (c.relabel r).change (s.relabel r) = r.outcome (Sum.relabel r) (c.change s) := by
  have removal := Relabelling.outcome_foldlM (removeVariant_relabel (r := r) c.tag) c.removed
    s.variants
  refine Relabelling.outcome_bind removal fun kept => ?_
  simp [Sum.relabel, relabel]

theorem changeFirst_relabel (c : SumChange) (types : List DataType) :
    (c.relabel r).changeFirst (types.map (DataType.relabel r)) =
      r.outcome (List.map (DataType.relabel r)) (c.changeFirst types) := by
  induction types with
  | nil => rfl
  | cons t ts ih =>
    have tag : ((t.relabel r).tag == (c.relabel r).tag) = (t.tag == c.tag) := by simp [relabel]
    simp only [List.map_cons, changeFirst, tag]
    by_cases first : t.tag == c.tag
    · simp only [first, ↓reduceIte]
      cases t with
      | sum s => exact Relabelling.outcome_bind (c.change_relabel s) fun _ => rfl
      | builtin _ | tuple _ => rfl
    · simp only [first, Bool.false_eq_true, ↓reduceIte]
      exact Relabelling.outcome_bind ih fun _ => rfl

theorem apply_relabel (types : List DataType) (c : SumChange) :
    apply (types.map (DataType.relabel r)) (c.relabel r) =
      r.outcome (List.map (DataType.relabel r)) (apply types c) := by
  have builtin : Builtin.isTag (c.relabel r).tag = Builtin.isTag c.tag := Relabelling.isTag_name _
  simp only [apply, builtin]
  split
  · rfl
  · exact c.changeFirst_relabel types

end SumChange

namespace Permutation

theorem alterTypes_relabel (p : Permutation) (types : List DataType) :
    (p.relabel r).alterTypes (types.map (DataType.relabel r)) =
      r.outcome (List.map (DataType.relabel r)) (p.alterTypes types) := by
  have exclusion := Relabelling.outcome_foldlM (excludeType_relabel (r := r)) p.excluded types
  refine Relabelling.outcome_bind exclusion fun left => ?_
  have change := Relabelling.outcome_foldlM (SumChange.apply_relabel (r := r)) p.sums left
  refine Relabelling.outcome_bind change fun changed => ?_
  simp [relabel]

theorem toDomain_relabel (p : Permutation) (ds : List Domain) :
    (p.relabel r).toDomain (ds.map (Domain.relabel r)) =
      r.outcome (Domain.relabel r) (p.toDomain ds) := by
  have base : Domain.find? (ds.map (Domain.relabel r)) (p.relabel r).base =
      (Domain.find? ds p.base).map (Domain.relabel r) := Domain.find?_relabel ds p.base
  simp only [toDomain, base]
  cases Domain.find? ds p.base with
  | none => rfl
  | some d => exact Relabelling.outcome_bind (p.alterTypes_relabel d.types) fun _ => rfl

end Permutation

/-! ## Differences -/

theorem Element.same_relabel (kind : TupleKind) (e f : Element) :
    (e.relabel r kind).same (f.relabel r kind) = e.same f := by
  have tags : (r.tag kind e.tag == r.tag kind f.tag) = (e.tag == f.tag) := by
    rw [Bool.eq_iff_iff, beq_iff_eq, beq_iff_eq, (r.tag_injective kind).eq_iff]
  simp [same, relabel, tags, TypeRef.same, TypeRef.relabel]

namespace Tuple

theorem sameShape_relabel (t u : Tuple) :
    (t.relabel r).sameShape (u.relabel r) = t.sameShape u := by
  by_cases kinds : t.kind = u.kind
  · simp [sameShape, relabel, kinds, isEqv_map (Element.same_relabel u.kind)]
  · have apart : (t.kind == u.kind) = false := beq_false_of_ne kinds
    simp [sameShape, relabel, apart]

theorem differenceFrom_relabel (t : Tuple) (other : Option Tuple) :
    (t.relabel r).differenceFrom (other.map (relabel r)) = (t.differenceFrom other).relabel r := by
  cases other with
  | none => rfl
  | some u =>
    simp only [differenceFrom, Option.map_some, Option.any_some, sameShape_relabel]
    rfl

end Tuple

theorem Sum.differenceFrom_relabel (s t : Sum) :
    (s.relabel r).differenceFrom (t.relabel r) = (s.differenceFrom t).relabel r := by
  have counterpart (v : Tuple) :
      (t.relabel r).variant? (v.relabel r).tag = (t.variant? v.tag).map (Tuple.relabel r) :=
    Relabelling.find?_relabel Tuple.tag (fun _ => rfl) t.variants v.tag
  have variant (v : Tuple) :
      (v.relabel r).differenceFrom ((t.relabel r).variant? (v.relabel r).tag) =
        (v.differenceFrom (t.variant? v.tag)).relabel r := by
    rw [counterpart, Tuple.differenceFrom_relabel]
  have variants : (s.relabel r).variants.map
        (fun v => v.differenceFrom ((t.relabel r).variant? v.tag)) =
      (s.variants.map fun v => v.differenceFrom (t.variant? v.tag)).map (Tuple.relabel r) := by
    change (s.variants.map (Tuple.relabel r)).map _ = _
    rw [List.map_map, List.map_map]
    exact List.map_congr_left fun v _ => variant v
  unfold differenceFrom
  rw [variants]
  dsimp only
  rw [List.any_map]
  rfl

namespace DataType

theorem asDifferent_relabel (t : DataType) :
    (t.relabel r).asDifferent = t.asDifferent.relabel r := by
  cases t <;> rfl

theorem differenceFrom_relabel (t u : DataType) :
    (t.relabel r).differenceFrom (u.relabel r) = (t.differenceFrom u).relabel r := by
  cases t with
  | builtin b => exact u.asDifferent_relabel
  | tuple t =>
    cases u with
    | tuple u => exact congrArg tuple (t.differenceFrom_relabel (some u))
    | builtin b => rfl
    | sum s => rfl
  | sum s =>
    cases u with
    | sum t => exact congrArg sum (s.differenceFrom_relabel t)
    | builtin b => rfl
    | tuple t => rfl

end DataType

theorem Domain.differenceFrom_relabel (d e : Domain) :
    (d.relabel r).differenceFrom (e.relabel r) = (d.differenceFrom e).relabel r := by
  have counterpart (t : DataType) :
      (e.relabel r).types.find? (·.tag == (t.relabel r).tag) =
        (e.types.find? (·.tag == t.tag)).map (DataType.relabel r) := by
    rw [DataType.tag_relabel]
    exact Relabelling.find?_relabel DataType.tag DataType.tag_relabel e.types t.tag
  have type (t : DataType) :
      (((e.relabel r).types.find? (·.tag == (t.relabel r).tag)).map (t.relabel r).differenceFrom) =
        ((e.types.find? (·.tag == t.tag)).map t.differenceFrom).map (DataType.relabel r) := by
    rw [counterpart]
    cases e.types.find? (·.tag == t.tag) with
    | none => rfl
    | some u => exact congrArg some (t.differenceFrom_relabel u)
  simp only [relabel] at type
  simp only [differenceFrom, relabel, List.filterMap_map, List.map_filterMap, Function.comp_def,
    type]

end TypeDomains
