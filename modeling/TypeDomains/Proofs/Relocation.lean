import TypeDomains.Proofs.FormGrammar
import TypeDomains.Proofs.Grammar
import TypeDomains.Proofs.Relabelling

/-!
# Values elsewhere

Where a row of tokens stands decides where its values stand, and nothing else: moved tokens spell
the moved values (`SExpr.Spelled.relocate`), and a moved form says the moved statement
(`StatementForm.relocate`).
-/

namespace TypeDomains

variable {f : Location → Location}

def Token.relocate (f : Location → Location) (t : Token) : Token := ⟨t.lexeme, f t.location⟩

/-- The value with all places in it moved by `f`. -/
def SExpr.relocate (f : Location → Location) : SExpr → SExpr
  | atom a names l => atom a names (f l)
  | list es names l => list (es.map (relocate f)) names (f l)

namespace SExpr

variable {e : SExpr} {es : List SExpr} {name : String}

@[simp]
theorem relocate_atom (a : Atom) (names : List String) (l : Location) :
    (atom a names l).relocate f = atom a names (f l) := by
  rw [relocate]

@[simp]
theorem relocate_list (es : List SExpr) (names : List String) (l : Location) :
    (list es names l).relocate f = list (es.map (relocate f)) names (f l) := by
  rw [relocate]

@[simp]
theorem location_relocate (e : SExpr) : (e.relocate f).location = f e.location := by
  cases e <;> simp [location]

@[simp]
theorem annotations_relocate (e : SExpr) : (e.relocate f).annotations = e.annotations := by
  cases e <;> simp [annotations]

theorem relocate_annotated (name : String) (l : Location) (e : SExpr) :
    (e.annotated name l).relocate f = (e.relocate f).annotated name (f l) := by
  cases e <;> simp [annotated]

theorem symbol?_relocate (e : SExpr) : (e.relocate f).symbol? = e.symbol? := by
  cases e with
  | atom a names l => cases a <;> simp [symbol?]
  | list es names l => simp [symbol?]

@[simp]
theorem head?_relocate (e : SExpr) : (e.relocate f).head? = e.head? := by
  cases e with
  | atom a names l => simp [head?]
  | list es names l => cases es <;> simp [head?, symbol?_relocate]

/-- Moved tokens spell the moved values. -/
theorem Spelled.relocate {ts : List Token} (h : Spelled ts es) (f : Location → Location) :
    Spelled (ts.map (Token.relocate f)) (es.map (SExpr.relocate f)) := by
  induction h with
  | nil => exact .nil
  | atom hx _ ih =>
    rw [List.map_cons, List.map_cons, relocate_atom]
    exact .atom hx ih
  | list _ _ ihes ihfs =>
    rw [List.map_append, List.map_cons, List.map_cons, List.map_cons, relocate_list]
    exact .list ihes ihfs
  | annotated hx _ ih =>
    rw [List.map_cons, List.map_cons, List.map_cons, relocate_annotated]
    exact .annotated hx ih

end SExpr

/-! ## Statements elsewhere -/

/-- The same names at other places. -/
def Relabelling.moving (f : Location → Location) (unknown : f .unknown = .unknown) : Relabelling :=
  { nowhere with place := f, unknown := unknown }

variable {unknown : f .unknown = .unknown}

theorem Element.relabel_moving (kind : TupleKind) (e : Element) :
    e.relabel (.moving f unknown) kind =
      ⟨e.identifier, e.tag, e.type.relabel (.moving f unknown), f e.location⟩ := by
  cases kind <;> rfl

theorem forall₂_relocate {α : Type} {R : SExpr → α → Prop} {g : α → α} {es : List SExpr}
    {as : List α} (h : List.Forall₂ R es as) (move : ∀ e a, R e a → R (e.relocate f) (g a)) :
    List.Forall₂ R (es.map (SExpr.relocate f)) (as.map g) := by
  rw [List.forall₂_map_left_iff, List.forall₂_map_right_iff]
  exact h.imp move

section Forms

variable (unknown) {e : SExpr}

theorem SExpr.Names.relocate {name : String} (h : e.Names name) : (e.relocate f).Names name := by
  cases h with
  | symbol =>
    rw [relocate_atom]
    exact .symbol

theorem TagForm.relocate {i : Ident} (h : TagForm e i) :
    TagForm (e.relocate f) (i.relabel (.moving f unknown)) := by
  cases h with
  | symbol =>
    rw [SExpr.relocate_atom]
    exact .symbol

theorem ReferenceForm.relocate {r : TypeRef} (h : ReferenceForm e r) :
    ReferenceForm (e.relocate f) (r.relabel (.moving f unknown)) := by
  cases h with
  | required =>
    rw [SExpr.relocate_atom]
    exact .required
  | optional mark name =>
    simp only [SExpr.relocate_list, List.map_cons, List.map_nil]
    exact .optional mark.relocate name.relocate
  | variadic mark name least greatest same =>
    simp only [SExpr.relocate_list, SExpr.relocate_atom, List.map_cons, List.map_nil]
    exact .variadic mark.relocate name.relocate least greatest same

theorem ElementForm.relocate {kind : TupleKind} {x : Element} (h : ElementForm kind e x) :
    ElementForm kind (e.relocate f) (x.relabel (.moving f unknown) kind) := by
  rw [Element.relabel_moving]
  cases kind with
  | product =>
    cases h with
    | identified annotated reference =>
      rw [← SExpr.annotations_relocate (f := f)] at annotated
      have part := PartForm.identified annotated (reference.relocate unknown)
      rwa [SExpr.location_relocate] at part
  | record =>
    cases h with
    | plain tag reference =>
      simp only [SExpr.relocate_list, List.map_cons, List.map_nil]
      exact .plain tag.relocate (reference.relocate unknown)
    | identified tag reference =>
      simp only [SExpr.relocate_list, List.map_cons, List.map_nil]
      exact .identified tag.relocate (reference.relocate unknown)

theorem elements_relocate (kind : TupleKind) {es : List SExpr} {xs : List Element}
    (h : List.Forall₂ (ElementForm kind) es xs) :
    List.Forall₂ (ElementForm kind) (es.map (SExpr.relocate f))
      (xs.map (Element.relabel (.moving f unknown) kind)) :=
  forall₂_relocate h fun _ _ element => element.relocate unknown

/-- A field leads the moved elements just where one led them before. -/
theorem ledByField_relocate {es : List SExpr} :
    LedByField (es.map (SExpr.relocate f)) ↔ LedByField es := by
  have kind : Tuple.variantKind (es.map (SExpr.relocate f)) = Tuple.variantKind es := by
    cases es with
    | nil => rfl
    | cons e es => simp [Tuple.variantKind]
  rw [← variantKind_eq_record_iff, ← variantKind_eq_record_iff, kind]

theorem VariantForm.relocate {t : Tuple} (h : VariantForm e t) :
    VariantForm (e.relocate f) (t.relabel (.moving f unknown)) := by
  cases h with
  | record head led fields =>
    rw [SExpr.relocate_list, List.map_cons]
    exact .record head.relocate (ledByField_relocate.2 led)
      (elements_relocate unknown .record fields)
  | product head led parts =>
    rw [SExpr.relocate_list, List.map_cons]
    exact .product head.relocate (ledByField_relocate.not.2 led)
      (elements_relocate unknown .product parts)

theorem TypeForm.relocate {t : DataType} (h : TypeForm e t) :
    TypeForm (e.relocate f) (t.relabel (.moving f unknown)) := by
  cases h with
  | product head name parts =>
    rw [SExpr.relocate_list, List.map_cons, List.map_cons]
    exact .product head.relocate name.relocate
      (elements_relocate unknown .product parts)
  | record head name fields =>
    rw [SExpr.relocate_list, List.map_cons, List.map_cons]
    exact .record head.relocate name.relocate
      (elements_relocate unknown .record fields)
  | sum head name variants =>
    rw [SExpr.relocate_list, List.map_cons, List.map_cons]
    exact .sum head.relocate name.relocate
      (forall₂_relocate variants fun _ _ variant => variant.relocate unknown)

def SumEdit.relabel (r : Relabelling) (edit : SumEdit) : SumEdit :=
  ⟨edit.removed.map (Ident.relabel r), edit.added.map (Tuple.relabel r)⟩

theorem SumChange.relabel_edits (r : Relabelling) (tag : String) (edits : List SumEdit)
    (l : Location) :
    relabel r ⟨tag, edits.flatMap SumEdit.removed, edits.flatMap SumEdit.added, l⟩ =
      ⟨r.name tag, (edits.map (SumEdit.relabel r)).flatMap SumEdit.removed,
        (edits.map (SumEdit.relabel r)).flatMap SumEdit.added, r.place l⟩ := by
  simp only [relabel, List.map_flatMap, List.flatMap_map, SumEdit.relabel]

theorem SumEditForm.relocate {edit : SumEdit} (h : SumEditForm e edit) :
    SumEditForm (e.relocate f) (edit.relabel (.moving f unknown)) := by
  cases h with
  | exclusion head tags =>
    rw [SExpr.relocate_list, List.map_cons]
    exact .exclusion head.relocate (forall₂_relocate tags fun _ _ tag => tag.relocate unknown)
  | inclusion head variants =>
    rw [SExpr.relocate_list, List.map_cons]
    exact .inclusion head.relocate
      (forall₂_relocate variants fun _ _ variant => variant.relocate unknown)

theorem SumChangeForm.relocate {c : SumChange} (h : SumChangeForm e c) :
    SumChangeForm (e.relocate f) (c.relabel (.moving f unknown)) := by
  cases h with
  | change head name edits =>
    rw [SExpr.relocate_list, List.map_cons, List.map_cons, SumChange.relabel_edits]
    exact .change head.relocate name.relocate
      (forall₂_relocate edits fun _ _ edit => edit.relocate unknown)

def Edit.relabel (r : Relabelling) (edit : Edit) : Edit where
  excluded := edit.excluded.map (Ident.relabel r)
  included := edit.included.map (DataType.relabel r)
  sums := edit.sums.map (SumChange.relabel r)

theorem Permutation.relabel_edits (r : Relabelling) (tag base : String) (edits : List Edit)
    (l : Location) :
    relabel r ⟨tag, base, edits.flatMap Edit.excluded, edits.flatMap Edit.included,
        edits.flatMap Edit.sums, l⟩ =
      ⟨r.name tag, r.name base, (edits.map (Edit.relabel r)).flatMap Edit.excluded,
        (edits.map (Edit.relabel r)).flatMap Edit.included,
        (edits.map (Edit.relabel r)).flatMap Edit.sums, r.place l⟩ := by
  simp only [relabel, List.map_flatMap, List.flatMap_map, Edit.relabel]

theorem EditForm.relocate {edit : Edit} (h : EditForm e edit) :
    EditForm (e.relocate f) (edit.relabel (.moving f unknown)) := by
  cases h with
  | exclusion head tags =>
    rw [SExpr.relocate_list, List.map_cons]
    exact .exclusion head.relocate (forall₂_relocate tags fun _ _ tag => tag.relocate unknown)
  | inclusion head types =>
    rw [SExpr.relocate_list, List.map_cons]
    exact .inclusion head.relocate (forall₂_relocate types fun _ _ type => type.relocate unknown)
  | change change => exact .change (change.relocate unknown)

/-- A moved form says the moved statement. -/
theorem StatementForm.relocate {x : Statement} (h : StatementForm e x) :
    StatementForm (e.relocate f) (x.relabel (.moving f unknown)) := by
  cases h with
  | domain head name keyword types =>
    simp only [SExpr.relocate_list, List.map_cons, List.map_nil]
    exact .domain head.relocate name.relocate keyword.relocate
      (forall₂_relocate types fun _ _ type => type.relocate unknown)
  | permutation head name keyword base edits =>
    simp only [SExpr.relocate_list, List.map_cons, List.map_nil]
    rw [Statement.relabel, Permutation.relabel_edits]
    exact .permutation head.relocate name.relocate keyword.relocate base.relocate
      (forall₂_relocate edits fun _ _ edit => edit.relocate unknown)
  | transform head source destination =>
    simp only [SExpr.relocate_list, List.map_cons, List.map_nil]
    exact .transform head.relocate source.relocate destination.relocate

end Forms

end TypeDomains
