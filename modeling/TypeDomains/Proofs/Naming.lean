import Mathlib.Data.List.Nodup
import TypeDomains.DomainRules
import TypeDomains.Proofs.Outcome

/-!
# The names of a domain

What the naming pass over a domain enters, and when it goes through: exactly if the tags of the
domain are distinct and so are the names inside each of its tuples (`ofDomain_ok`).
-/

namespace TypeDomains

/-- The tuples of a type: the type itself, or the variants of a sum. -/
def DataType.tuples : DataType → List Tuple
  | builtin _ => []
  | tuple t => [t]
  | sum s => s.variants

def Domain.tuples (d : Domain) : List Tuple := d.types.flatMap DataType.tuples

theorem Domain.forall_mem_tuples {d : Domain} {p : Tuple → Prop} :
    (∀ t ∈ d.tuples, p t) ↔ ∀ type ∈ d.types, ∀ t ∈ type.tuples, p t :=
  List.forall_mem_flatMap

/-- The tags that a type puts into its domain. -/
def DataType.names : DataType → List String
  | builtin b => [b.tag]
  | tuple t => [t.tag]
  | sum s => s.tag :: s.variants.map Tuple.tag

/-- The one namespace of a domain: the built-in tags, and those of its types and variants. -/
def Domain.names (d : Domain) : List String :=
  Builtin.all.map Builtin.tag ++ d.types.flatMap DataType.names

structure Tuple.NamesDistinct (t : Tuple) : Prop where
  identifiers : (t.elements.map Element.identifier).Nodup
  fields : t.kind = .record → (t.elements.map Element.tag).Nodup

def Element.binding (e : Element) : Binding := ⟨e.identifier, .element, e.location⟩

def Tuple.binding (kind : NameKind) (t : Tuple) : Binding := ⟨t.tag, kind, t.location⟩

def DataType.bindings (l : Location) : DataType → Frame
  | builtin b => [⟨b.tag, .type, l⟩]
  | tuple t => [t.binding .type]
  | sum s => ⟨s.tag, .type, s.location⟩ :: s.variants.map (Tuple.binding .variant)

def Builtin.binding (l : Location) (b : Builtin) : Binding := ⟨b.tag, .builtin, l⟩

/-- What the naming pass enters, in order. -/
def Domain.bindings (d : Domain) : Frame :=
  Builtin.all.map (Builtin.binding d.location) ++ d.types.flatMap (DataType.bindings d.location)

theorem DataType.map_name_bindings (l : Location) (t : DataType) :
    (t.bindings l).map Binding.name = t.names := by
  cases t <;> simp [bindings, names, Tuple.binding]

theorem Domain.map_name_bindings (d : Domain) : d.bindings.map Binding.name = d.names := by
  simp only [bindings, names, List.map_append, List.map_map, List.map_flatMap,
    DataType.map_name_bindings]
  rfl

namespace NameTable

def Distinct (f : Frame) : Prop := (f.map Binding.name).Nodup

theorem distinct_cons {b : Binding} {f : Frame} :
    Distinct (b :: f) ↔ binds f b.name = false ∧ Distinct f := by
  simp [Distinct, binds, List.any_eq_false]

theorem Distinct.of_append {f g : Frame} (h : Distinct (g ++ f)) : Distinct f := by
  unfold Distinct at h ⊢
  rw [List.map_append] at h
  exact (List.nodup_append.1 h).2.1

theorem enter_ok {d f : Frame} {fs : List Frame} {name : String} {kind : NameKind} {l : Location}
    {u : NameTable} (hf : Distinct f) :
    (⟨d, f :: fs⟩ : NameTable).enter name kind l = .ok u ↔
      Distinct (⟨name, kind, l⟩ :: f) ∧ u = ⟨d, (⟨name, kind, l⟩ :: f) :: fs⟩ := by
  rw [distinct_cons]
  cases h : binds f name <;> simp [enter, define?, h, hf, eq_comm]

/-! ## The names inside a tuple -/

/-- The frame `f` holds the identifiers of the elements before `es`, and `fields` their tags. -/
theorem enterElements_ok {kind : TupleKind} {d f : Frame} {fs : List Frame}
    {fields : List String} {es : List Element} {u : NameTable} (hf : Distinct f)
    (hfields : kind = .record → fields.Nodup) :
    enterElements kind ⟨d, f :: fs⟩ fields es = .ok u ↔
      Distinct ((es.map Element.binding).reverse ++ f) ∧
      (kind = .record → ((es.map Element.tag).reverse ++ fields).Nodup) ∧
      u = ⟨d, ((es.map Element.binding).reverse ++ f) :: fs⟩ := by
  induction es generalizing f fields with
  | nil =>
    simp only [enterElements, List.map_nil, List.reverse_nil, List.nil_append, Except.ok.injEq]
    exact ⟨fun h => ⟨hf, hfields, h.symm⟩, fun h => h.2.2.symm⟩
  | cons e es ih =>
    simp only [enterElements, bind_ok, enter_ok hf, List.map_cons, List.reverse_cons,
      List.append_assoc, List.singleton_append]
    constructor
    · rintro ⟨_, ⟨hd, rfl⟩, h⟩
      split at h
      · simp at h
      · rename_i hk
        have hnext : kind = .record → (e.tag :: fields).Nodup := by
          intro hr
          simp only [hr, decide_true, Bool.true_and, List.contains_iff_mem] at hk
          exact List.nodup_cons.2 ⟨hk, hfields hr⟩
        exact (ih hd hnext).1 h
    · rintro ⟨hd, ht, rfl⟩
      have hd' : Distinct (⟨e.identifier, .element, e.location⟩ :: f) := hd.of_append
      have hnext (hr : kind = .record) : (e.tag :: fields).Nodup :=
        (List.nodup_append.1 (ht hr)).2.1
      refine ⟨_, ⟨hd', rfl⟩, ?_⟩
      split
      · rename_i hk
        simp only [Bool.and_eq_true, decide_eq_true_eq, List.contains_iff_mem] at hk
        exact absurd hk.2 (List.nodup_cons.1 (hnext hk.1)).1
      · exact (ih hd' hnext).2 ⟨hd, ht, rfl⟩

/-! ## The names of the domain -/

/-- The step enters `bs` in the domain's frame, and goes through exactly if their names are new
and `p` holds. -/
def Enters (step : NameTable → Except DomainError NameTable) (bs : Frame) (p : Prop) : Prop :=
  ∀ f u, Distinct f →
    (step ⟨f, []⟩ = .ok u ↔ p ∧ Distinct (bs.reverse ++ f) ∧ u = ⟨bs.reverse ++ f, []⟩)

theorem Enters.enter (name : String) (kind : NameKind) (l : Location) :
    Enters (fun t => t.enter name kind l) [⟨name, kind, l⟩] True := by
  intro f u hf
  simp only [List.reverse_singleton, List.singleton_append, true_and, distinct_cons]
  cases h : binds f name <;> simp [NameTable.enter, define?, h, hf, eq_comm]

theorem Enters.comp {g k : NameTable → Except DomainError NameTable} {bs cs : Frame} {p q : Prop}
    (hg : Enters g bs p) (hk : Enters k cs q) :
    Enters (fun t => g t >>= k) (bs ++ cs) (p ∧ q) := by
  intro f u hf
  simp only [bind_ok, hg f _ hf, List.reverse_append, List.append_assoc]
  constructor
  · rintro ⟨_, ⟨hp, hd, rfl⟩, h⟩
    obtain ⟨hq, hd', rfl⟩ := (hk _ _ hd).1 h
    exact ⟨⟨hp, hq⟩, hd', rfl⟩
  · rintro ⟨⟨hp, hq⟩, hd', rfl⟩
    have hd : Distinct (bs.reverse ++ f) := hd'.of_append
    exact ⟨_, ⟨hp, hd, rfl⟩, (hk _ _ hd).2 ⟨hq, hd', rfl⟩⟩

theorem Enters.foldlM {α : Type} {g : NameTable → α → Except DomainError NameTable}
    {bs : α → Frame} {p : α → Prop} (h : ∀ a, Enters (fun t => g t a) (bs a) (p a))
    (as : List α) : Enters (fun t => as.foldlM g t) (as.flatMap bs) (∀ a ∈ as, p a) := by
  induction as with
  | nil =>
    intro f u hf
    simp [pure, Except.pure, hf, eq_comm]
  | cons a as ih =>
    intro f u hf
    have := (h a).comp ih f u hf
    simpa only [List.foldlM_cons, List.flatMap_cons, List.forall_mem_cons] using this

theorem enterElements_empty_ok {d : Frame} {fs : List Frame} {t : Tuple} {u : NameTable} :
    enterElements t.kind ⟨d, [] :: fs⟩ [] t.elements = .ok u ↔
      t.NamesDistinct ∧ u = ⟨d, (t.elements.map Element.binding).reverse :: fs⟩ := by
  have names : (t.elements.map Element.binding).map Binding.name =
      t.elements.map Element.identifier := by
    rw [List.map_map]
    rfl
  rw [enterElements_ok (by simp [Distinct]) (by simp)]
  simp only [List.append_nil, Distinct, List.map_reverse, List.nodup_reverse, names]
  exact ⟨fun ⟨hi, hf, h⟩ => ⟨⟨hi, hf⟩, h⟩, fun ⟨⟨hi, hf⟩, h⟩ => ⟨hi, hf, h⟩⟩

theorem Enters.enterTuple (kind : NameKind) (tuple : Tuple) :
    Enters (fun t => t.enterTuple kind tuple) [tuple.binding kind] tuple.NamesDistinct := by
  intro f u hf
  simp only [NameTable.enterTuple, bind_ok, pure_ok, Enters.enter _ _ _ f _ hf, true_and,
    List.reverse_singleton, List.singleton_append]
  constructor
  · rintro ⟨_, ⟨hd, rfl⟩, _, h, rfl⟩
    obtain ⟨hn, rfl⟩ := enterElements_empty_ok.1 h
    exact ⟨hn, hd, rfl⟩
  · rintro ⟨hn, hd, rfl⟩
    exact ⟨_, ⟨hd, rfl⟩, _, enterElements_empty_ok.2 ⟨hn, rfl⟩, rfl⟩

theorem Enters.enterType (l : Location) (type : DataType) :
    Enters (fun t => t.enterType l type) (type.bindings l)
      (∀ t ∈ type.tuples, t.NamesDistinct) := by
  cases type with
  | builtin b =>
    simpa [DataType.tuples, DataType.bindings, NameTable.enterType] using Enters.enter b.tag .type l
  | tuple t =>
    simpa [DataType.tuples, DataType.bindings, NameTable.enterType] using Enters.enterTuple .type t
  | sum s =>
    have variants := Enters.foldlM (Enters.enterTuple .variant) s.variants
    have whole := (Enters.enter s.tag .type s.location).comp variants
    simpa [DataType.tuples, DataType.bindings, NameTable.enterType, ← List.map_eq_flatMap]
      using whole

theorem Enters.builtin (l : Location) (b : Builtin) :
    Enters (fun t => t.enter b.tag .builtin l) [b.binding l] True :=
  Enters.enter b.tag .builtin l

/-- The naming pass goes through exactly if all names are distinct, and then the domain's frame
holds a binding for each of them. -/
theorem ofDomain_ok {d : Domain} {u : NameTable} :
    ofDomain d = .ok u ↔
      (∀ t ∈ d.tuples, t.NamesDistinct) ∧ d.names.Nodup ∧ u = ⟨d.bindings.reverse, []⟩ := by
  have builtins := Enters.foldlM (Enters.builtin d.location) Builtin.all
  have types := Enters.foldlM (Enters.enterType d.location) d.types
  have whole := builtins.comp types [] u (by simp [Distinct])
  rw [← List.map_eq_flatMap] at whole
  rw [← d.map_name_bindings, ← List.nodup_reverse, ← List.map_reverse, Domain.forall_mem_tuples]
  simpa [ofDomain, empty, Domain.bindings, Distinct] using whole

end NameTable

end TypeDomains
