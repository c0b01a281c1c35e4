import TypeDomains.Compilation
import TypeDomains.Proofs.Relabelling

/-!
# Compiling a relabelled universe

The check of a relabelled domain complains of the relabelled fault (`Domain.check_relabel`), and a
relabelled universe compiles to the relabelled compilation (`Compilation.ofUniverse_relabel`).
-/

namespace TypeDomains

variable {r : Relabelling}

/-! ## Name tables -/

def Binding.relabel (r : Relabelling) (b : Binding) : Binding :=
  ⟨r.name b.name, b.kind, r.place b.location⟩

namespace NameTable

def relabel (r : Relabelling) (t : NameTable) : NameTable :=
  ⟨t.domain.map (Binding.relabel r), t.inner.map (List.map (Binding.relabel r))⟩

theorem binds_relabel (f : Frame) (name : String) :
    binds (f.map (Binding.relabel r)) (r.name name) = binds f name :=
  Relabelling.any_relabel Binding.name (fun _ => rfl) f name

theorem define?_relabel (t : NameTable) (b : Binding) :
    (t.relabel r).define? (b.relabel r) = (t.define? b).map (relabel r) := by
  obtain ⟨d, inner⟩ := t
  cases inner with
  | nil =>
    have bound : binds (d.map (Binding.relabel r)) (b.relabel r).name = binds d b.name :=
      binds_relabel d b.name
    simp only [relabel, define?, List.map_nil, bound]
    split
    · rfl
    · rfl
  | cons f fs =>
    have bound : binds (f.map (Binding.relabel r)) (b.relabel r).name = binds f b.name :=
      binds_relabel f b.name
    simp only [relabel, define?, List.map_cons, bound]
    split
    · rfl
    · rfl

theorem lookup?_relabel (t : NameTable) (name : String) :
    (t.relabel r).lookup? (r.name name) = (t.lookup? name).map (Binding.relabel r) :=
  Relabelling.find?_relabel Binding.name (fun _ => rfl) t.domain name

theorem enter_relabel (t : NameTable) (name : String) (kind : NameKind) (l : Location) :
    (t.relabel r).enter (r.name name) kind (r.place l) =
      r.outcome (relabel r) (t.enter name kind l) := by
  have defined := define?_relabel (r := r) t ⟨name, kind, l⟩
  simp only [Binding.relabel] at defined
  unfold enter
  rw [defined]
  cases t.define? ⟨name, kind, l⟩ with
  | none => rfl
  | some u => rfl

theorem enterElements_relabel (kind : TupleKind) (t : NameTable) (fields : List String)
    (es : List Element) :
    enterElements kind (t.relabel r) (fields.map (r.tag kind)) (es.map (Element.relabel r kind)) =
      r.outcome (relabel r) (enterElements kind t fields es) := by
  induction es generalizing t fields with
  | nil => rfl
  | cons e es ih =>
    have used : (fields.map (r.tag kind)).contains (r.tag kind e.tag) = fields.contains e.tag := by
      simp [(r.tag_injective kind).eq_iff]
    refine Relabelling.outcome_bind (enter_relabel t e.identifier .element e.location) fun u => ?_
    simp only [Element.relabel, used]
    -- Only a record refuses a field for its tag, and there tags are names.
    cases kind with
    | product => exact ih u (e.tag :: fields)
    | record =>
      split
      · rfl
      · exact ih u (e.tag :: fields)

theorem enterTuple_relabel (kind : NameKind) (t : NameTable) (tuple : Tuple) :
    enterTuple kind (t.relabel r) (tuple.relabel r) =
      r.outcome (relabel r) (enterTuple kind t tuple) := by
  refine Relabelling.outcome_bind (enter_relabel t tuple.tag kind tuple.location) fun u => ?_
  have elements := enterElements_relabel (r := r) tuple.kind u.push [] tuple.elements
  refine Relabelling.outcome_bind elements fun v => ?_
  simp [pop, relabel]

theorem enterType_relabel (l : Location) (t : NameTable) (type : DataType) :
    enterType (r.place l) (t.relabel r) (type.relabel r) =
      r.outcome (relabel r) (enterType l t type) := by
  cases type with
  | builtin b =>
    have entered := enter_relabel (r := r) t b.tag .type l
    rwa [r.builtin] at entered
  | tuple tuple => exact enterTuple_relabel .type t tuple
  | sum s =>
    refine Relabelling.outcome_bind (enter_relabel t s.tag .type s.location) fun u => ?_
    exact Relabelling.outcome_foldlM (enterTuple_relabel .variant) s.variants u

theorem ofDomain_relabel (d : Domain) :
    ofDomain (d.relabel r) = r.outcome (relabel r) (ofDomain d) := by
  have builtin (t : NameTable) (b : Builtin) :
      (t.relabel r).enter b.tag .builtin (r.place d.location) =
        r.outcome (relabel r) (t.enter b.tag .builtin d.location) := by
    have entered := enter_relabel (r := r) t b.tag .builtin d.location
    rwa [r.builtin] at entered
  have builtins :
      (Builtin.all.map id).foldlM (fun t b => t.enter b.tag .builtin (r.place d.location))
          (empty.relabel r) =
        r.outcome (relabel r)
          (Builtin.all.foldlM (fun t b => t.enter b.tag .builtin d.location) empty) :=
    Relabelling.outcome_foldlM builtin Builtin.all empty
  rw [List.map_id] at builtins
  refine Relabelling.outcome_bind builtins fun t => ?_
  exact Relabelling.outcome_foldlM (enterType_relabel d.location) d.types t

end NameTable

/-! ## The check -/

namespace Element

variable {kind : TupleKind}

theorem checkReference_relabel (names : NameTable) (t : Tuple) (e : Element) :
    (e.relabel r kind).checkReference (names.relabel r) (t.relabel r) =
      r.outcome id (e.checkReference names t) := by
  have lookup : (names.relabel r).lookup? (e.relabel r kind).type.name =
      (names.lookup? e.type.name).map (Binding.relabel r) := names.lookup?_relabel e.type.name
  have element : (t.relabel r).element? (e.relabel r kind).type.name =
      (t.element? e.type.name).map (relabel r t.kind) :=
    Relabelling.find?_relabel Element.identifier (fun _ => rfl) t.elements e.type.name
  simp only [checkReference, lookup, element, Option.isSome_map]
  cases names.lookup? e.type.name with
  | none =>
    dsimp only [Option.map_none]
    split
    · rfl
    · rfl
  | some b =>
    dsimp only [Option.map_some, Binding.relabel]
    split
    · rfl
    · rfl

theorem checkOrder_relabel (after : Bool) (e : Element) :
    (e.relabel r kind).checkOrder after = r.outcome id (e.checkOrder after) := by
  have arity : (e.relabel r kind).type.arity = e.type.arity := rfl
  cases after with
  | false => rfl
  | true =>
    simp only [checkOrder, arity]
    cases e.type.arity <;> rfl

theorem checkIon_relabel (e : Element) :
    (e.relabel r kind).checkIon = r.outcome id e.checkIon := by
  have ion : r.name e.type.name = Builtin.ion.tag ↔ e.type.name = Builtin.ion.tag :=
    Relabelling.name_eq_tag
  have condition : (decide ((e.relabel r kind).type.arity = .optional) &&
        decide ((e.relabel r kind).type.name = Builtin.ion.tag)) =
      (decide (e.type.arity = .optional) && decide (e.type.name = Builtin.ion.tag)) := by
    congr 1
    exact decide_eq_decide.mpr ion
  simp only [checkIon, condition]
  cases decide (e.type.arity = .optional) && decide (e.type.name = Builtin.ion.tag) <;> rfl

end Element

namespace Tuple

theorem checkElements_relabel (names : NameTable) (t : Tuple) (after : Bool) (es : List Element) :
    (t.relabel r).checkElements (names.relabel r) after (es.map (Element.relabel r t.kind)) =
      r.outcome id (t.checkElements names after es) := by
  induction es generalizing after with
  | nil => rfl
  | cons e es ih =>
    refine Relabelling.outcome_bind (e.checkReference_relabel names t) fun _ => ?_
    refine Relabelling.outcome_bind (e.checkOrder_relabel after) fun _ => ?_
    refine Relabelling.outcome_bind e.checkIon_relabel fun _ => ?_
    exact ih (after || e.type.arity.isVariadic)

theorem check_relabel (names : NameTable) (t : Tuple) :
    (t.relabel r).check (names.relabel r) = r.outcome id (t.check names) := by
  have empty : (t.relabel r).elements.isEmpty = t.elements.isEmpty := by simp [relabel]
  have kind : (t.relabel r).kind = t.kind := rfl
  simp only [check, empty, kind]
  split
  · rfl
  · exact checkElements_relabel names t false t.elements

end Tuple

theorem DataType.check_relabel (names : NameTable) (t : DataType) :
    (t.relabel r).check (names.relabel r) = r.outcome id (t.check names) := by
  cases t with
  | builtin b => rfl
  | tuple t => exact t.check_relabel names
  | sum s =>
    have empty : (s.relabel r).variants.isEmpty = s.variants.isEmpty := by simp [Sum.relabel]
    simp only [relabel, check, empty]
    split
    · rfl
    · exact Relabelling.outcome_forM (Tuple.check_relabel names) s.variants

theorem Domain.check_relabel (d : Domain) : (d.relabel r).check = r.outcome id d.check := by
  refine Relabelling.outcome_bind (NameTable.ofDomain_relabel d) fun names => ?_
  exact Relabelling.outcome_forM (DataType.check_relabel names) d.types

/-! ## Universes -/

namespace Statement

theorem defines?_relabel (ds : List Domain) (x : Statement) :
    (x.relabel r).defines? (ds.map (Domain.relabel r)) =
      r.outcome (Option.map (Domain.relabel r)) (x.defines? ds) := by
  cases x with
  | domain d => rfl
  | permutation p =>
    simp only [relabel, defines?, Permutation.toDomain_relabel]
    cases p.toDomain ds with
    | error e => rfl
    | ok d => rfl
  | transform t => rfl

theorem location_relabel (x : Statement) : (x.relabel r).location = r.place x.location := by
  cases x <;> rfl

theorem define_relabel (ds : List Domain) (x : Statement) :
    define (ds.map (Domain.relabel r)) (x.relabel r) =
      r.outcome (List.map (Domain.relabel r)) (define ds x) := by
  refine Relabelling.outcome_bind (x.defines?_relabel ds) fun o => ?_
  cases o with
  | none => rfl
  | some d =>
    have known : Domain.find? (ds.map (Domain.relabel r)) (d.relabel r).tag =
        (Domain.find? ds d.tag).map (Domain.relabel r) := Domain.find?_relabel ds d.tag
    simp only [Option.map_some, known, Option.isSome_map, location_relabel]
    split
    · rfl
    · refine Relabelling.outcome_bind d.check_relabel fun _ => ?_
      simp

end Statement

theorem Transform.side_relabel (t : Transform) (ds : List Domain) (tag : String) :
    (t.relabel r).side (ds.map (Domain.relabel r)) (r.name tag) =
      r.outcome (Domain.relabel r) (t.side ds tag) := by
  simp only [side, Domain.find?_relabel]
  cases Domain.find? ds tag with
  | none => rfl
  | some d => rfl

theorem Transform.difference_relabel (ds : List Domain) (t : Transform) :
    difference (ds.map (Domain.relabel r)) (t.relabel r) =
      r.outcome (Domain.relabel r) (difference ds t) := by
  refine Relabelling.outcome_bind (t.side_relabel ds t.source) fun source => ?_
  refine Relabelling.outcome_bind (t.side_relabel ds t.destination) fun destination => ?_
  simp [Domain.differenceFrom_relabel]

namespace Universe

theorem domains_relabel (u : Universe) :
    (u.relabel r).domains = r.outcome (List.map (Domain.relabel r)) u.domains := by
  have empty : (u.relabel r).statements.isEmpty = u.statements.isEmpty := by simp [relabel]
  simp only [domains, empty]
  split
  · simp [Relabelling.error, DomainFault.rename, r.unknown]
  · exact Relabelling.outcome_foldlM Statement.define_relabel u.statements []

theorem transforms_relabel (u : Universe) :
    (u.relabel r).transforms = u.transforms.map (Transform.relabel r) := by
  simp only [transforms, relabel, List.filterMap_map, List.map_filterMap]
  congr 1
  funext x
  cases x <;> rfl

theorem differences_relabel (u : Universe) (ds : List Domain) :
    (u.relabel r).differences (ds.map (Domain.relabel r)) =
      r.outcome (List.map (Domain.relabel r)) (u.differences ds) := by
  unfold differences
  rw [transforms_relabel]
  exact Relabelling.outcome_mapM (Transform.difference_relabel ds) u.transforms

end Universe

namespace Compilation

def relabel (r : Relabelling) (c : Compilation) : Compilation where
  source := c.source.relabel r
  domains := c.domains.map (Domain.relabel r)
  differences := c.differences.map (Domain.relabel r)

theorem ofUniverse_relabel (withTransforms : Bool) (u : Universe) :
    ofUniverse withTransforms (u.relabel r) = r.outcome (relabel r) (ofUniverse withTransforms u) := by
  refine Relabelling.outcome_bind u.domains_relabel fun ds => ?_
  cases withTransforms with
  | true => exact Relabelling.outcome_bind (u.differences_relabel ds) fun _ => rfl
  | false => rfl

end Compilation

end TypeDomains
