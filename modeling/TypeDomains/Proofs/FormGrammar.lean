import TypeDomains.Proofs.Forms

/-!
# The grammar of forms

Which s-expressions are which statements, said without an order in which they are read and without
a word on errors. Annotations count where elements stand and nowhere else. A top-level value that
asks for no file is read exactly if the grammar has it, and then as the statement that the grammar
says (`Form.ofSExpr_iff_statementForm`).
-/

namespace TypeDomains

/-! ## Names and references -/

/-- `NAME`, any symbol. -/
inductive SExpr.Names : SExpr → String → Prop where
  | symbol {name as l} : Names (.atom (.symbol name) as l) name

inductive TagForm : SExpr → Ident → Prop where
  | symbol {name as l} : TagForm (.atom (.symbol name) as l) ⟨name, l⟩

/-- `NAME`, `(? NAME)` or `(* NAME INTEGER)`. -/
inductive ReferenceForm : SExpr → TypeRef → Prop where
  | required {name as l} : ReferenceForm (.atom (.symbol name) as l) ⟨name, .required, l⟩
  | optional {mark type name as l} : mark.Names "?" → type.Names name →
    ReferenceForm (.list [mark, type] as l) ⟨name, .optional, l⟩
  | variadic {mark type name n min bs m as l} : mark.Names "*" → type.Names name →
    0 ≤ n → n ≤ 4294967295 → min.toNat = n →
    ReferenceForm (.list [mark, type, .atom (.integer n) bs m] as l) ⟨name, .variadic min, l⟩

/-! ## Elements and types -/

/-- A reference under exactly one annotation. -/
inductive PartForm : SExpr → Element → Prop where
  | identified {e identifier type} : e.annotations = [identifier] → ReferenceForm e type →
    PartForm e ⟨identifier, "", type, e.location⟩

/-- `(NAME REFERENCE)` under one annotation at most. -/
inductive FieldForm : SExpr → Element → Prop where
  | plain {field reference tag type l} : field.Names tag → ReferenceForm reference type →
    FieldForm (.list [field, reference] [] l) ⟨tag, tag, type, l⟩
  | identified {field reference identifier tag type l} : field.Names tag →
    ReferenceForm reference type →
    FieldForm (.list [field, reference] [identifier] l) ⟨identifier, tag, type, l⟩

/-- The first of the values is a list headed by a symbol other than `?` and `*`. -/
def LedByField (es : List SExpr) : Prop :=
  ∃ head items as l rest name, es = .list (head :: items) as l :: rest ∧ head.Names name ∧
    name ≠ "?" ∧ name ≠ "*"

/-- `(NAME FIELD*)` if a field leads, and `(NAME PART*)` if none does. -/
inductive VariantForm : SExpr → Tuple → Prop where
  | record {head es tag xs as l} : head.Names tag → LedByField es → List.Forall₂ FieldForm es xs →
    VariantForm (.list (head :: es) as l) ⟨tag, .record, xs, false, l⟩
  | product {head es tag xs as l} : head.Names tag → ¬LedByField es → List.Forall₂ PartForm es xs →
    VariantForm (.list (head :: es) as l) ⟨tag, .product, xs, false, l⟩

/-- `(product NAME PART*)`, `(record NAME FIELD*)` or `(sum NAME VARIANT*)`. -/
inductive TypeForm : SExpr → DataType → Prop where
  | product {head name es tag xs as l} : head.Names "product" → name.Names tag →
    List.Forall₂ PartForm es xs →
    TypeForm (.list (head :: name :: es) as l) (.tuple ⟨tag, .product, xs, false, l⟩)
  | record {head name es tag xs as l} : head.Names "record" → name.Names tag →
    List.Forall₂ FieldForm es xs →
    TypeForm (.list (head :: name :: es) as l) (.tuple ⟨tag, .record, xs, false, l⟩)
  | sum {head name es tag vs as l} : head.Names "sum" → name.Names tag →
    List.Forall₂ VariantForm es vs →
    TypeForm (.list (head :: name :: es) as l) (.sum ⟨tag, vs, false, l⟩)

/-! ## Alterations -/

/-- What one alteration of a sum asks for. -/
structure SumEdit where
  removed : List Ident
  added : List Tuple

/-- `(exclude NAME*)` or `(include VARIANT*)`. -/
inductive SumEditForm : SExpr → SumEdit → Prop where
  | exclusion {head es is as l} : head.Names "exclude" → List.Forall₂ TagForm es is →
    SumEditForm (.list (head :: es) as l) ⟨is, []⟩
  | inclusion {head es vs as l} : head.Names "include" → List.Forall₂ VariantForm es vs →
    SumEditForm (.list (head :: es) as l) ⟨[], vs⟩

/-- `(with NAME ALTERATION*)`. -/
inductive SumChangeForm : SExpr → SumChange → Prop where
  | change {head name es tag edits as l} : head.Names "with" → name.Names tag →
    List.Forall₂ SumEditForm es edits →
    SumChangeForm (.list (head :: name :: es) as l)
      ⟨tag, edits.flatMap SumEdit.removed, edits.flatMap SumEdit.added, l⟩

/-- What one alteration of a domain asks for. -/
structure Edit where
  excluded : List Ident
  included : List DataType
  sums : List SumChange

/-- `(exclude NAME*)`, `(include TYPE*)` or `(with NAME ALTERATION*)`. -/
inductive EditForm : SExpr → Edit → Prop where
  | exclusion {head es is as l} : head.Names "exclude" → List.Forall₂ TagForm es is →
    EditForm (.list (head :: es) as l) ⟨is, [], []⟩
  | inclusion {head es ts as l} : head.Names "include" → List.Forall₂ TypeForm es ts →
    EditForm (.list (head :: es) as l) ⟨[], ts, []⟩
  | change {e c} : SumChangeForm e c → EditForm e ⟨[], [], [c]⟩

/-! ## Statements -/

/-- `(define NAME (domain TYPE*))`, `(define NAME (permute_domain NAME ALTERATION*))` or
`(transform NAME NAME)`. -/
inductive StatementForm : SExpr → Statement → Prop where
  | domain {head name keyword es tag ts bs m as l} : head.Names "define" → name.Names tag →
    keyword.Names "domain" → List.Forall₂ TypeForm es ts →
    StatementForm (.list [head, name, .list (keyword :: es) bs m] as l) (.domain ⟨tag, ts, l⟩)
  | permutation {head name keyword base es tag old edits bs m as l} : head.Names "define" →
    name.Names tag → keyword.Names "permute_domain" → base.Names old →
    List.Forall₂ EditForm es edits →
    StatementForm (.list [head, name, .list (keyword :: base :: es) bs m] as l)
      (.permutation ⟨tag, old, edits.flatMap Edit.excluded, edits.flatMap Edit.included,
        edits.flatMap Edit.sums, l⟩)
  | transform {head a b source destination as l} : head.Names "transform" → a.Names source →
    b.Names destination →
    StatementForm (.list [head, a, b] as l) (.transform ⟨source, destination, l⟩)

/-! ## Reading by the grammar -/

namespace SExpr

variable {e : SExpr} {es : List SExpr} {name : String}

theorem symbol_iff : e.symbol = .ok name ↔ e.Names name := by
  rw [symbol_ok]
  constructor
  · intro h
    unfold symbol? at h
    split at h
    · rw [← Option.some.inj h]
      exact .symbol
    · simp at h
  · intro h
    cases h with
    | symbol => rfl

theorem form_iff : e.form = .ok (name, es) ↔
    ∃ head names l, e = .list (head :: es) names l ∧ head.Names name := by
  simp only [form_ok, symbol_iff]

theorem Names.form {head : SExpr} (h : head.Names name) (names : List String) (l : Location) :
    (list (head :: es) names l).form = .ok (name, es) :=
  form_iff.2 ⟨head, names, l, rfl, h⟩

end SExpr

theorem TagForm.iff_ofSExpr {e : SExpr} {i : Ident} : Ident.ofSExpr e = .ok i ↔ TagForm e i := by
  rw [Ident.ofSExpr_ok]
  constructor
  · rintro ⟨name, hname, rfl⟩
    cases SExpr.symbol_iff.1 hname with
    | symbol => exact .symbol
  · intro h
    cases h with
    | symbol => exact ⟨_, SExpr.symbol_iff.2 .symbol, rfl⟩

theorem ReferenceForm.iff_ofSExpr {e : SExpr} {r : TypeRef} :
    TypeRef.ofSExpr e = .ok r ↔ ReferenceForm e r := by
  simp only [TypeRef.ofSExpr_ok, SExpr.symbol_iff, TypeRef.minimum_ok]
  constructor
  · rintro (⟨name, names, l, rfl, rfl⟩ | ⟨mark, type, names, l, rfl, hmark, name, hname, rfl⟩ |
      ⟨mark, type, _, names, l, rfl, hmark, name, hname, min, ⟨bs, m, rfl⟩, rfl⟩)
    · exact .required
    · exact .optional hmark hname
    · have least : (0 : Int) ≤ min.toNat := by omega
      have greatest : (min.toNat : Int) ≤ 4294967295 := by
        have := min.toNat_lt
        omega
      exact .variadic hmark hname least greatest rfl
  · intro h
    cases h with
    | required => exact .inl ⟨_, _, _, rfl, rfl⟩
    | optional hmark hname => exact .inr (.inl ⟨_, _, _, _, rfl, hmark, _, hname, rfl⟩)
    | variadic hmark hname _ _ hmin =>
      subst hmin
      exact .inr (.inr ⟨_, _, _, _, _, rfl, hmark, _, hname, _, ⟨_, _, rfl⟩, rfl⟩)

theorem PartForm.iff_ofPart {e : SExpr} {x : Element} : Element.ofPart e = .ok x ↔ PartForm e x := by
  simp only [Element.ofPart_ok, ReferenceForm.iff_ofSExpr]
  constructor
  · rintro ⟨identifier, annotated, type, reference, rfl⟩
    exact .identified annotated reference
  · intro h
    cases h with
    | identified annotated reference => exact ⟨_, annotated, _, reference, rfl⟩

theorem FieldForm.iff_ofField {e : SExpr} {x : Element} :
    Element.ofField e = .ok x ↔ FieldForm e x := by
  simp only [Element.ofField_ok, ReferenceForm.iff_ofSExpr, SExpr.symbol_iff]
  constructor
  · rintro ⟨field, reference, names, l, rfl, tag, htag, identifier, annotated, type, htype, rfl⟩
    cases names with
    | nil =>
      obtain rfl : tag = identifier := Option.some.inj annotated
      exact .plain htag htype
    | cons name names =>
      cases names with
      | nil =>
        obtain rfl : name = identifier := Option.some.inj annotated
        exact .identified htag htype
      | cons _ _ => simp [Element.fieldIdentifier] at annotated
  · intro h
    cases h with
    | plain htag htype => exact ⟨_, _, _, _, rfl, _, htag, _, rfl, _, htype, rfl⟩
    | identified htag htype => exact ⟨_, _, _, _, rfl, _, htag, _, rfl, _, htype, rfl⟩

/-- Item by item, a list is read as the grammar has it. -/
theorem mapM_iff {α : Type} {f : SExpr → Except SourceError α} {R : SExpr → α → Prop}
    (h : ∀ e a, f e = .ok a ↔ R e a) {es : List SExpr} {as : List α} :
    es.mapM f = .ok as ↔ List.Forall₂ R es as := by
  simp only [mapM_ok, h]

theorem variantKind_eq_record_iff {es : List SExpr} :
    Tuple.variantKind es = .record ↔ LedByField es := by
  rw [Tuple.variantKind_eq_record]
  constructor
  · rintro ⟨e, he, name, hname, optional, variadic⟩
    cases es with
    | nil => simp at he
    | cons first rest =>
      obtain rfl : first = e := Option.some.inj he
      unfold SExpr.head? at hname
      split at hname
      · rename_i head items as l
        have names : head.Names name := SExpr.symbol_iff.1 (SExpr.symbol_ok.2 hname)
        exact ⟨head, items, as, l, rest, name, rfl, names, optional, variadic⟩
      · simp at hname
  · rintro ⟨head, items, as, l, rest, name, rfl, names, optional, variadic⟩
    have symbol : head.symbol? = some name := SExpr.symbol_ok.1 (SExpr.symbol_iff.2 names)
    exact ⟨_, rfl, name, symbol, optional, variadic⟩

theorem variantKind_eq_product_iff {es : List SExpr} :
    Tuple.variantKind es = .product ↔ ¬LedByField es := by
  rw [← variantKind_eq_record_iff]
  cases Tuple.variantKind es <;> simp

/-- An element of a product is a part, and one of a record a field. -/
def ElementForm : TupleKind → SExpr → Element → Prop
  | .product => PartForm
  | .record => FieldForm

theorem ElementForm.iff_mapM {kind : TupleKind} {es : List SExpr} {xs : List Element} :
    es.mapM (Element.ofSExpr kind) = .ok xs ↔ List.Forall₂ (ElementForm kind) es xs := by
  cases kind with
  | product => exact mapM_iff fun _ _ => PartForm.iff_ofPart
  | record => exact mapM_iff fun _ _ => FieldForm.iff_ofField

theorem VariantForm.iff_ofVariant {e : SExpr} {t : Tuple} :
    Tuple.ofVariant e = .ok t ↔ VariantForm e t := by
  simp only [Tuple.ofVariant_ok, Tuple.ofElements_ok, SExpr.form_iff, ElementForm.iff_mapM]
  constructor
  · rintro ⟨tag, es, ⟨head, as, l, rfl, hhead⟩, xs, elements, rfl⟩
    cases kind : Tuple.variantKind es with
    | record =>
      rw [kind] at elements
      exact .record hhead (variantKind_eq_record_iff.1 kind) elements
    | product =>
      rw [kind] at elements
      exact .product hhead (variantKind_eq_product_iff.1 kind) elements
  · intro h
    cases h with
    | @record head es tag xs as l hhead led fields =>
      refine ⟨tag, es, ⟨head, as, l, rfl, hhead⟩, xs, ?_⟩
      rw [variantKind_eq_record_iff.2 led]
      exact ⟨fields, rfl⟩
    | @product head es tag xs as l hhead led parts =>
      refine ⟨tag, es, ⟨head, as, l, rfl, hhead⟩, xs, ?_⟩
      rw [variantKind_eq_product_iff.2 led]
      exact ⟨parts, rfl⟩

theorem TypeForm.iff_ofSExpr {e : SExpr} {t : DataType} :
    DataType.ofSExpr e = .ok t ↔ TypeForm e t := by
  simp only [DataType.ofSExpr_ok, DataType.ofTuple_ok, DataType.ofSum_ok, Tuple.ofElements_ok,
    SExpr.form_iff, SExpr.symbol_iff, ElementForm.iff_mapM,
    mapM_iff fun _ _ => VariantForm.iff_ofVariant]
  constructor
  · rintro (⟨kind, _, ⟨head, as, l, rfl, hhead⟩, name, es, rfl, tag, htag, _, ⟨xs, hxs, rfl⟩, rfl⟩ |
      ⟨_, ⟨head, as, l, rfl, hhead⟩, name, es, rfl, vs, hvs, tag, htag, rfl⟩)
    · cases kind with
      | product => exact .product hhead htag hxs
      | record => exact .record hhead htag hxs
    · exact .sum hhead htag hvs
  · intro h
    cases h with
    | product hhead htag parts =>
      exact .inl ⟨.product, _, ⟨_, _, _, rfl, hhead⟩, _, _, rfl, _, htag, _, ⟨_, parts, rfl⟩, rfl⟩
    | record hhead htag fields =>
      exact .inl ⟨.record, _, ⟨_, _, _, rfl, hhead⟩, _, _, rfl, _, htag, _, ⟨_, fields, rfl⟩, rfl⟩
    | sum hhead htag hvs =>
      exact .inr ⟨_, ⟨_, _, _, rfl, hhead⟩, _, _, rfl, _, hvs, _, htag, rfl⟩

/-! ## Alterations, one after the other -/

def SumChange.edited (c : SumChange) (edit : SumEdit) : SumChange :=
  { c with removed := c.removed ++ edit.removed, added := c.added ++ edit.added }

theorem SumChange.foldl_edited (edits : List SumEdit) (c : SumChange) :
    edits.foldl edited c = { c with
      removed := c.removed ++ edits.flatMap SumEdit.removed
      added := c.added ++ edits.flatMap SumEdit.added } := by
  induction edits generalizing c with
  | nil => simp
  | cons edit edits ih => simp [ih, edited]

theorem SumEditForm.iff_alter {c c' : SumChange} {e : SExpr} :
    c.alter e = .ok c' ↔ ∃ edit, SumEditForm e edit ∧ c.edited edit = c' := by
  simp only [SumChange.alter_ok, SExpr.form_iff, mapM_iff fun _ _ => TagForm.iff_ofSExpr,
    mapM_iff fun _ _ => VariantForm.iff_ofVariant]
  constructor
  · rintro (⟨es, ⟨head, as, l, rfl, hhead⟩, is, his, rfl⟩ |
      ⟨es, ⟨head, as, l, rfl, hhead⟩, vs, hvs, rfl⟩)
    · exact ⟨_, .exclusion hhead his, by simp [SumChange.edited]⟩
    · exact ⟨_, .inclusion hhead hvs, by simp [SumChange.edited]⟩
  · rintro ⟨edit, h, rfl⟩
    cases h with
    | exclusion hhead his => exact .inl ⟨_, ⟨_, _, _, rfl, hhead⟩, _, his, by simp [SumChange.edited]⟩
    | inclusion hhead hvs => exact .inr ⟨_, ⟨_, _, _, rfl, hhead⟩, _, hvs, by simp [SumChange.edited]⟩

theorem SumEditForm.iff_foldlM {c c' : SumChange} {es : List SExpr} :
    es.foldlM SumChange.alter c = .ok c' ↔ ∃ edits, List.Forall₂ SumEditForm es edits ∧
      { c with
        removed := c.removed ++ edits.flatMap SumEdit.removed
        added := c.added ++ edits.flatMap SumEdit.added } = c' := by
  have step (c : SumChange) (e : SExpr) (c' : SumChange) :
      c.alter e = .ok c' ↔ ∃ edit, SumEditForm e edit ∧ c.edited edit = c' := iff_alter
  rw [foldlM_ok_of_step step]
  simp only [SumChange.foldl_edited]

theorem SumChangeForm.iff_ofArguments {e : SExpr} {c : SumChange} :
    (∃ es, e.form = .ok ("with", es) ∧ SumChange.ofArguments e es = .ok c) ↔ SumChangeForm e c := by
  simp only [SumChange.ofArguments_ok, SExpr.form_iff, SExpr.symbol_iff, SumEditForm.iff_foldlM]
  constructor
  · rintro ⟨_, ⟨head, as, l, rfl, hhead⟩, name, es, rfl, tag, htag, edits, hedits, rfl⟩
    exact .change hhead htag hedits
  · intro h
    cases h with
    | change hhead htag hedits =>
      exact ⟨_, ⟨_, _, _, rfl, hhead⟩, _, _, rfl, _, htag, _, hedits, rfl⟩

def Permutation.edited (p : Permutation) (edit : Edit) : Permutation :=
  { p with
    excluded := p.excluded ++ edit.excluded
    included := p.included ++ edit.included
    sums := p.sums ++ edit.sums }

theorem Permutation.foldl_edited (edits : List Edit) (p : Permutation) :
    edits.foldl edited p = { p with
      excluded := p.excluded ++ edits.flatMap Edit.excluded
      included := p.included ++ edits.flatMap Edit.included
      sums := p.sums ++ edits.flatMap Edit.sums } := by
  induction edits generalizing p with
  | nil => simp
  | cons edit edits ih => simp [ih, edited]

theorem EditForm.iff_alter {p p' : Permutation} {e : SExpr} :
    p.alter e = .ok p' ↔ ∃ edit, EditForm e edit ∧ p.edited edit = p' := by
  simp only [Permutation.alter_ok]
  constructor
  · rintro (⟨es, hform, is, his, rfl⟩ | ⟨es, hform, ts, hts, rfl⟩ | ⟨es, hform, c, hc, rfl⟩)
    · obtain ⟨head, as, l, rfl, hhead⟩ := SExpr.form_iff.1 hform
      have tags := (mapM_iff fun _ _ => TagForm.iff_ofSExpr).1 his
      exact ⟨_, .exclusion hhead tags, by simp [Permutation.edited]⟩
    · obtain ⟨head, as, l, rfl, hhead⟩ := SExpr.form_iff.1 hform
      have types := (mapM_iff fun _ _ => TypeForm.iff_ofSExpr).1 hts
      exact ⟨_, .inclusion hhead types, by simp [Permutation.edited]⟩
    · have changed := SumChangeForm.iff_ofArguments.1 ⟨es, hform, hc⟩
      exact ⟨_, .change changed, by simp [Permutation.edited]⟩
  · rintro ⟨edit, h, rfl⟩
    cases h with
    | exclusion hhead tags =>
      have read := (mapM_iff fun _ _ => TagForm.iff_ofSExpr).2 tags
      exact .inl ⟨_, hhead.form _ _, _, read, by simp [Permutation.edited]⟩
    | inclusion hhead types =>
      have read := (mapM_iff fun _ _ => TypeForm.iff_ofSExpr).2 types
      exact .inr (.inl ⟨_, hhead.form _ _, _, read, by simp [Permutation.edited]⟩)
    | change hc =>
      obtain ⟨es, form, read⟩ := SumChangeForm.iff_ofArguments.2 hc
      exact .inr (.inr ⟨es, form, _, read, by simp [Permutation.edited]⟩)

theorem EditForm.iff_foldlM {p p' : Permutation} {es : List SExpr} :
    es.foldlM Permutation.alter p = .ok p' ↔ ∃ edits, List.Forall₂ EditForm es edits ∧
      { p with
        excluded := p.excluded ++ edits.flatMap Edit.excluded
        included := p.included ++ edits.flatMap Edit.included
        sums := p.sums ++ edits.flatMap Edit.sums } = p' := by
  have step (p : Permutation) (e : SExpr) (p' : Permutation) :
      p.alter e = .ok p' ↔ ∃ edit, EditForm e edit ∧ p.edited edit = p' := iff_alter
  rw [foldlM_ok_of_step step]
  simp only [Permutation.foldl_edited]

/-! ## Statements -/

theorem StatementForm.iff_ofSExpr {e : SExpr} {x : Statement} :
    Form.ofSExpr e = .ok (.statement x) ↔ StatementForm e x := by
  simp only [Form.statement_ok, Statement.ofDefine_ok, Statement.ofBody_ok,
    Statement.ofTransform_ok, SExpr.form_iff, SExpr.symbol_iff,
    mapM_iff fun _ _ => TypeForm.iff_ofSExpr, EditForm.iff_foldlM]
  constructor
  · rintro (⟨_, ⟨head, as, l, rfl, hhead⟩, name, body, rfl, tag, htag, hbody⟩ |
      ⟨_, ⟨head, as, l, rfl, hhead⟩, a, b, rfl, source, hsource, destination, hdestination, rfl⟩)
    · rcases hbody with ⟨es, ⟨keyword, bs, m, rfl, hkeyword⟩, ts, hts, rfl⟩ |
        ⟨base, es, ⟨keyword, bs, m, rfl, hkeyword⟩, old, hold, _, ⟨edits, hedits, rfl⟩, rfl⟩
      · exact .domain hhead htag hkeyword hts
      · exact .permutation hhead htag hkeyword hold hedits
    · exact .transform hhead hsource hdestination
  · intro h
    cases h with
    | domain hhead htag hkeyword hts =>
      refine .inl ⟨_, ⟨_, _, _, rfl, hhead⟩, _, _, rfl, _, htag, .inl ?_⟩
      exact ⟨_, ⟨_, _, _, rfl, hkeyword⟩, _, hts, rfl⟩
    | permutation hhead htag hkeyword hold hedits =>
      refine .inl ⟨_, ⟨_, _, _, rfl, hhead⟩, _, _, rfl, _, htag, .inr ?_⟩
      exact ⟨_, _, ⟨_, _, _, rfl, hkeyword⟩, _, hold, _, ⟨_, hedits, rfl⟩, rfl⟩
    | transform hhead hsource hdestination =>
      exact .inr ⟨_, ⟨_, _, _, rfl, hhead⟩, _, _, rfl, _, hsource, _, hdestination, rfl⟩

/-- Only a value headed `include_file` asks for a file. -/
theorem Form.head?_of_inclusion {e : SExpr} {path : String} {l : Location}
    (h : ofSExpr e = .ok (.inclusion path l)) : e.head? = some "include_file" := by
  simp only [ofSExpr, bind_ok, Prod.exists] at h
  obtain ⟨head, es, hform, h⟩ := h
  split at h
  · simp only [bind_ok, pure_ok, reduceCtorEq, and_false, exists_false] at h
  · simp only [bind_ok, pure_ok, reduceCtorEq, and_false, exists_false] at h
  · obtain ⟨first, names, m, rfl, symbol⟩ := SExpr.form_ok.1 hform
    exact SExpr.symbol_ok.1 symbol
  · simp at h

/-- **The grammar of statements.** A top-level value that asks for no file is read exactly if it has
one of the forms of a statement, and what is read is the statement of that form. -/
theorem Form.ofSExpr_iff_statementForm (e : SExpr) (he : e.head? ≠ some "include_file") :
    ((∃ form, ofSExpr e = .ok form) ↔ ∃ x, StatementForm e x) ∧
    ∀ form, ofSExpr e = .ok form ↔ ∃ x, form = .statement x ∧ StatementForm e x := by
  have read (form : Form) : ofSExpr e = .ok form ↔ ∃ x, form = .statement x ∧ StatementForm e x := by
    cases form with
    | statement x => simp [StatementForm.iff_ofSExpr]
    | inclusion path l =>
      have never : ofSExpr e ≠ .ok (.inclusion path l) := fun h => he (head?_of_inclusion h)
      simp [never]
  refine ⟨?_, read⟩
  constructor
  · rintro ⟨form, h⟩
    obtain ⟨x, -, hx⟩ := (read form).1 h
    exact ⟨x, hx⟩
  · rintro ⟨x, hx⟩
    exact ⟨.statement x, StatementForm.iff_ofSExpr.2 hx⟩

/-- The value `x::(f (* int 2))`. -/
def several : SExpr :=
  .list [.atom (.symbol "f") [] .unknown,
    .list [.atom (.symbol "*") [] .unknown, .atom (.symbol "int") [] .unknown,
      .atom (.integer 2) [] .unknown] [] .unknown] ["x"] .unknown

/-- The value `(define d (domain (sum s (v x::(f (* int 2))))))`. -/
def defining : SExpr :=
  .list [.atom (.symbol "define") [] .unknown, .atom (.symbol "d") [] .unknown,
    .list [.atom (.symbol "domain") [] .unknown,
      .list [.atom (.symbol "sum") [] .unknown, .atom (.symbol "s") [] .unknown,
        .list [.atom (.symbol "v") [] .unknown, several] [] .unknown] [] .unknown] [] .unknown]
    [] .unknown

theorem ofSExpr_iff_statementForm_defining : defining.head? ≠ some "include_file" ∧
    Form.ofSExpr defining = .ok (.statement (.domain ⟨"d", [.sum ⟨"s",
      [⟨"v", .record, [⟨"x", "f", ⟨"int", .variadic 2, .unknown⟩, .unknown⟩], false, .unknown⟩],
      false, .unknown⟩], .unknown⟩)) := by
  have other : defining.head? ≠ some "include_file" := by decide
  have field : FieldForm several ⟨"x", "f", ⟨"int", .variadic 2, .unknown⟩, .unknown⟩ :=
    .identified .symbol (.variadic .symbol .symbol (by decide) (by decide) rfl)
  have led : LedByField [several] :=
    ⟨_, _, _, _, _, "f", rfl, .symbol, by decide, by decide⟩
  have spelled : StatementForm defining _ :=
    .domain .symbol .symbol .symbol (.cons (.sum .symbol .symbol
      (.cons (.record .symbol led (.cons field .nil)) .nil)) .nil)
  exact ⟨other, ((Form.ofSExpr_iff_statementForm defining other).2 _).2 ⟨_, rfl, spelled⟩⟩

end TypeDomains
