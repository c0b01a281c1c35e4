import TypeDomains.Form
import TypeDomains.Proofs.ValueLocations

/-!
# What forms are blamed for

Reading a form makes no places up. If all values of an expression stand at places of `L`, then so
does the model that is read from it, and if none is, the complaint stands at one of these places,
too.
-/

namespace TypeDomains

/-! ## Models at places -/

section Places

variable (L : Location → Prop)

def Located.At {α : Type} (e : Located α) : Prop := L e.location

/-- The value and all values inside it stand at places of `L`. -/
def SExpr.At (e : SExpr) : Prop := ∀ v ∈ e.preorder, L v.location

def TypeRef.At (r : TypeRef) : Prop := L r.location

structure Element.At (e : Element) : Prop where
  location : L e.location
  type : e.type.At L

structure Tuple.At (t : Tuple) : Prop where
  location : L t.location
  elements : ∀ e ∈ t.elements, e.At L

structure Sum.At (s : Sum) : Prop where
  location : L s.location
  variants : ∀ v ∈ s.variants, v.At L

/-- A built-in type stands nowhere. -/
def DataType.At : DataType → Prop
  | builtin _ => True
  | tuple t => t.At L
  | sum s => s.At L

structure Domain.At (d : Domain) : Prop where
  location : L d.location
  types : ∀ t ∈ d.types, t.At L

def Ident.At (i : Ident) : Prop := L i.location

structure SumChange.At (c : SumChange) : Prop where
  location : L c.location
  removed : ∀ i ∈ c.removed, i.At L
  added : ∀ v ∈ c.added, v.At L

structure Permutation.At (p : Permutation) : Prop where
  location : L p.location
  excluded : ∀ i ∈ p.excluded, i.At L
  included : ∀ t ∈ p.included, t.At L
  sums : ∀ c ∈ p.sums, c.At L

def Statement.At : Statement → Prop
  | domain d => d.At L
  | permutation p => p.At L
  | transform t => L t.location

/-- An inclusion stands where its path does. -/
def Form.At : Form → Prop
  | statement x => x.At L
  | inclusion _ l => L l

end Places

variable {L : Location → Prop}

/-! ## The parts of a form -/

namespace SExpr

variable {e : SExpr} {es : List SExpr}

theorem at_list {names : List String} {l : Location} :
    (list es names l).At L ↔ L l ∧ ∀ e ∈ es, e.At L := by
  simp only [At, preorder_list, List.forall_mem_cons, location, List.mem_flatMap,
    forall_exists_index, and_imp]
  exact and_congr_right fun _ => ⟨fun h e he v hv => h v e he hv, fun h v e he hv => h e he v hv⟩

namespace At

variable (h : e.At L)
include h

theorem location : L e.location := h e e.mem_preorder_self

theorem headLocation : L e.headLocation := by
  unfold SExpr.headLocation
  split
  · exact ((at_list.1 h).2 _ List.mem_cons_self).location
  · exact h.location

theorem symbol : ComesTo (Located.At L) (fun _ => True) e.symbol := by
  unfold SExpr.symbol
  split
  · trivial
  · exact h.location

theorem string : ComesTo (Located.At L) (fun _ => True) e.string := by
  unfold SExpr.string
  split
  · trivial
  · exact h.location

theorem form : ComesTo (Located.At L) (fun p => ∀ a ∈ p.2, a.At L) e.form := by
  unfold SExpr.form
  split
  · obtain ⟨head, arguments⟩ := List.forall_mem_cons.1 (at_list.1 h).2
    exact head.symbol.map fun _ _ => arguments
  · exact h.location
  · exact h.location

theorem first (hes : ∀ a ∈ es, a.At L) (head : String) :
    ComesTo (Located.At L) (fun p => p.1.At L ∧ ∀ a ∈ p.2, a.At L) (e.first head es) := by
  cases es with
  | nil => exact h.location
  | cons a as => exact List.forall_mem_cons.1 hes

theorem only (hes : ∀ a ∈ es, a.At L) (head : String) :
    ComesTo (Located.At L) (SExpr.At L) (e.only head es) := by
  unfold SExpr.only
  split
  · exact hes _ List.mem_cons_self
  · exact h.location

theorem pair (hes : ∀ a ∈ es, a.At L) (head : String) :
    ComesTo (Located.At L) (fun p => p.1.At L ∧ p.2.At L) (e.pair head es) := by
  unfold SExpr.pair
  split
  · obtain ⟨ha, hb⟩ := by simpa using hes
    exact ⟨ha, hb⟩
  · exact h.location

end At

end SExpr

/-! ## Types -/

variable {e : SExpr} {es : List SExpr}

theorem Ident.at_ofSExpr (h : e.At L) : ComesTo (Located.At L) (At L) (ofSExpr e) :=
  h.symbol.bind fun _ _ => h.location

namespace TypeRef

theorem comesTo_minimum (h : e.At L) : ComesTo (Located.At L) (fun _ => True) (minimum e) := by
  unfold minimum
  split
  · split
    · trivial
    · exact h.location
  · exact h.location

theorem at_ofSExpr (h : e.At L) : ComesTo (Located.At L) (At L) (ofSExpr e) := by
  have here := h.location
  unfold ofSExpr
  split
  · exact here
  · obtain ⟨head, arguments⟩ := List.forall_mem_cons.1 (SExpr.at_list.1 h).2
    refine head.symbol.bind fun arity _ => ?_
    split
    · exact (h.only arguments _).bind fun name hname => hname.symbol.bind fun _ _ => here
    · refine (h.pair arguments _).bind fun (name, min) hpair => hpair.1.symbol.bind fun _ _ => ?_
      exact (comesTo_minimum hpair.2).bind fun _ _ => here
    · exact head.location
  · exact here

end TypeRef

namespace Element

theorem at_ofPart (h : e.At L) : ComesTo (Located.At L) (At L) (ofPart e) := by
  unfold ofPart
  split
  · exact h.location
  · exact (TypeRef.at_ofSExpr h).bind fun _ type => ⟨h.location, type⟩
  · exact h.location

theorem at_ofField (h : e.At L) : ComesTo (Located.At L) (At L) (ofField e) := by
  have here := h.location
  unfold ofField
  split
  · obtain ⟨field, type⟩ := by simpa using (SExpr.at_list.1 h).2
    refine field.symbol.bind fun tag _ => ?_
    split
    · exact (TypeRef.at_ofSExpr type).bind fun _ type => ⟨here, type⟩
    · exact (TypeRef.at_ofSExpr type).bind fun _ type => ⟨here, type⟩
    · exact here
  · exact here

theorem at_ofSExpr (kind : TupleKind) (h : e.At L) :
    ComesTo (Located.At L) (At L) (ofSExpr kind e) := by
  cases kind with
  | product => exact at_ofPart h
  | record => exact at_ofField h

end Element

namespace Tuple

theorem at_ofElements (tag : String) (kind : TupleKind) {l : Location} (hl : L l)
    (hes : ∀ e ∈ es, e.At L) : ComesTo (Located.At L) (At L) (ofElements tag kind es l) :=
  (ComesTo.mapM fun e he => Element.at_ofSExpr kind (hes e he)).bind fun _ elements =>
    ⟨hl, elements⟩

theorem at_ofVariant (h : e.At L) : ComesTo (Located.At L) (At L) (ofVariant e) :=
  h.form.bind fun (tag, _) helements => at_ofElements tag _ h.location helements

end Tuple

namespace DataType

theorem at_ofTuple (kind : TupleKind) (h : e.At L) (hes : ∀ a ∈ es, a.At L) :
    ComesTo (Located.At L) (At L) (ofTuple e kind es) := by
  refine (h.first hes _).bind fun (tag, elements) hfirst => hfirst.1.symbol.bind fun name _ => ?_
  exact (Tuple.at_ofElements name kind h.location hfirst.2).bind fun _ tuple => tuple

theorem at_ofSum (h : e.At L) (hes : ∀ a ∈ es, a.At L) :
    ComesTo (Located.At L) (At L) (ofSum e es) := by
  refine (h.first hes _).bind fun (tag, variants) hfirst => ?_
  refine (ComesTo.mapM fun v hv => Tuple.at_ofVariant (hfirst.2 v hv)).bind fun _ variants => ?_
  exact hfirst.1.symbol.bind fun _ _ => ⟨h.location, variants⟩

theorem at_ofSExpr (h : e.At L) : ComesTo (Located.At L) (At L) (ofSExpr e) := by
  refine h.form.bind fun (head, arguments) harguments => ?_
  dsimp only
  split
  · exact at_ofTuple .product h harguments
  · exact at_ofTuple .record h harguments
  · exact at_ofSum h harguments
  · exact h.headLocation

end DataType

/-! ## Statements -/

theorem SumChange.at_alter {c : SumChange} (hc : c.At L) (h : e.At L) :
    ComesTo (Located.At L) (At L) (c.alter e) := by
  refine h.form.bind fun (head, arguments) harguments => ?_
  dsimp only
  split
  · refine (ComesTo.mapM fun i hi => Ident.at_ofSExpr (harguments i hi)).bind fun _ removed => ?_
    exact ⟨hc.location, List.forall_mem_append.2 ⟨hc.removed, removed⟩, hc.added⟩
  · refine (ComesTo.mapM fun v hv => Tuple.at_ofVariant (harguments v hv)).bind fun _ added => ?_
    exact ⟨hc.location, hc.removed, List.forall_mem_append.2 ⟨hc.added, added⟩⟩
  · exact h.headLocation

theorem SumChange.at_ofArguments (h : e.At L) (hes : ∀ a ∈ es, a.At L) :
    ComesTo (Located.At L) (At L) (ofArguments e es) := by
  refine (h.first hes _).bind fun (tag, alterations) hfirst => hfirst.1.symbol.bind fun _ _ => ?_
  exact .foldlM ⟨h.location, by simp, by simp⟩ fun a ha c hc => at_alter hc (hfirst.2 a ha)

theorem Permutation.at_alter {p : Permutation} (hp : p.At L) (h : e.At L) :
    ComesTo (Located.At L) (At L) (p.alter e) := by
  refine h.form.bind fun (head, arguments) harguments => ?_
  dsimp only
  split
  · refine (ComesTo.mapM fun i hi => Ident.at_ofSExpr (harguments i hi)).bind fun _ excluded => ?_
    exact { hp with excluded := List.forall_mem_append.2 ⟨hp.excluded, excluded⟩ }
  · refine (ComesTo.mapM fun t ht => DataType.at_ofSExpr (harguments t ht)).bind fun _ types => ?_
    exact { hp with included := List.forall_mem_append.2 ⟨hp.included, types⟩ }
  · refine (SumChange.at_ofArguments h harguments).bind fun c hc => ?_
    exact { hp with sums := List.forall_mem_append.2 ⟨hp.sums, List.forall_mem_singleton.2 hc⟩ }
  · exact h.headLocation

namespace Statement

theorem at_ofBody (tag : String) {l : Location} (hl : L l) (h : e.At L) :
    ComesTo (Located.At L) (At L) (ofBody tag l e) := by
  refine h.form.bind fun (head, arguments) harguments => ?_
  dsimp only
  split
  · exact (ComesTo.mapM fun t ht => DataType.at_ofSExpr (harguments t ht)).bind fun _ types =>
      ⟨hl, types⟩
  · refine (h.first harguments _).bind fun (base, alterations) hfirst => ?_
    refine hfirst.1.symbol.bind fun name _ => ?_
    have start : Permutation.At L ⟨tag, name, [], [], [], l⟩ := ⟨hl, by simp, by simp, by simp⟩
    refine (ComesTo.foldlM start fun a ha p hp => ?_).bind fun _ hp => hp
    exact Permutation.at_alter hp (hfirst.2 a ha)
  · exact h.headLocation

theorem at_ofDefine (h : e.At L) (hes : ∀ a ∈ es, a.At L) :
    ComesTo (Located.At L) (At L) (ofDefine e es) :=
  (h.pair hes _).bind fun (_, _) hpair => hpair.1.symbol.bind fun name _ =>
    at_ofBody name h.location hpair.2

theorem at_ofTransform (h : e.At L) (hes : ∀ a ∈ es, a.At L) :
    ComesTo (Located.At L) (At L) (ofTransform e es) :=
  (h.pair hes _).bind fun (_, _) hpair => hpair.1.symbol.bind fun _ _ =>
    hpair.2.symbol.bind fun _ _ => h.location

end Statement

/-- What a form says stands where the form and its parts do, and so does what it is blamed for. -/
theorem Form.at_ofSExpr (h : e.At L) : ComesTo (Located.At L) (At L) (ofSExpr e) := by
  refine h.form.bind fun (head, arguments) harguments => ?_
  dsimp only
  split
  · exact (Statement.at_ofDefine h harguments).bind fun _ hx => hx
  · exact (Statement.at_ofTransform h harguments).bind fun _ hx => hx
  · exact (h.only harguments _).bind fun _ path => path.string.bind fun _ _ => path.location
  · exact h.headLocation

end TypeDomains
