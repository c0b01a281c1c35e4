import TypeDomains.Proofs.Forms

/-!
# What source text can express

A declaration has no flags, no built-in types among its own, and no tags in products; and a variant
is only known for a record by its first field. All that is read from s-expressions keeps to this
(`Statement.expressible_of_form`).
-/

namespace TypeDomains

/-! ## Expressible models -/

structure Tuple.Expressible (t : Tuple) : Prop where
  unflagged : t.different = false
  untagged : t.kind = .product → ∀ e ∈ t.elements, e.tag = ""

/-- A tuple that can stand as a variant, where no keyword tells its kind. -/
structure Tuple.ExpressibleAsVariant (t : Tuple) : Prop extends t.Expressible where
  leads : t.kind = .record → ∃ e ∈ t.elements.head?, e.tag ≠ "?" ∧ e.tag ≠ "*"

structure Sum.Expressible (s : Sum) : Prop where
  unflagged : s.different = false
  variants : ∀ t ∈ s.variants, t.ExpressibleAsVariant

def DataType.Expressible : DataType → Prop
  | builtin _ => False
  | tuple t => t.Expressible
  | sum s => s.Expressible

def Domain.Expressible (d : Domain) : Prop := ∀ t ∈ d.types, t.Expressible

def SumChange.Expressible (s : SumChange) : Prop := ∀ t ∈ s.added, t.ExpressibleAsVariant

structure Permutation.Expressible (p : Permutation) : Prop where
  included : ∀ t ∈ p.included, t.Expressible
  sums : ∀ s ∈ p.sums, s.Expressible

def Statement.Expressible : Statement → Prop
  | domain d => d.Expressible
  | permutation p => p.Expressible
  | transform _ => True

def Universe.Expressible (u : Universe) : Prop := ∀ x ∈ u.statements, x.Expressible

/-! ## What is read is expressible -/

theorem Element.tag_of_ofPart {e : SExpr} {x : Element} (h : ofPart e = .ok x) : x.tag = "" := by
  obtain ⟨identifier, -, type, -, rfl⟩ := ofPart_ok.1 h
  rfl

/-- A field is a list that starts with its tag. -/
theorem Element.head?_of_ofField {e : SExpr} {x : Element} (h : ofField e = .ok x) :
    e.head? = some x.tag := by
  obtain ⟨field, reference, names, l, rfl, tag, htag, identifier, -, type, -, rfl⟩ := ofField_ok.1 h
  exact SExpr.symbol_ok.1 htag

namespace Tuple

variable {tag : String} {kind : TupleKind} {es : List SExpr} {e : SExpr} {l : Location} {t : Tuple}

theorem expressible_of_ofElements (h : ofElements tag kind es l = .ok t) : t.Expressible := by
  obtain ⟨elements, helements, rfl⟩ := ofElements_ok.1 h
  refine ⟨rfl, ?_⟩
  intro hkind
  obtain rfl : kind = .product := hkind
  exact forall_of_mapM helements fun e x hx => Element.tag_of_ofPart hx

theorem expressible_of_ofVariant (h : ofVariant e = .ok t) : t.ExpressibleAsVariant := by
  obtain ⟨tag, es, -, h⟩ := ofVariant_ok.1 h
  refine ⟨expressible_of_ofElements h, ?_⟩
  intro hkind
  obtain ⟨elements, helements, rfl⟩ := ofElements_ok.1 h
  have record : variantKind es = .record := hkind
  rw [record] at helements
  obtain ⟨e, he, head, hhead, arity⟩ := variantKind_eq_record.1 record
  cases mapM_ok.1 helements with
  | nil => simp at he
  | @cons first x _ _ hx _ =>
    obtain rfl : first = e := Option.some.inj he
    obtain rfl : x.tag = head := by simpa [Element.head?_of_ofField hx] using hhead
    exact ⟨x, rfl, arity⟩

end Tuple

theorem DataType.expressible_of_ofSExpr {e : SExpr} {t : DataType} (h : ofSExpr e = .ok t) :
    t.Expressible := by
  rcases ofSExpr_ok.1 h with ⟨kind, es, -, h⟩ | ⟨es, -, h⟩
  · obtain ⟨_, _, -, _, -, u, hu, rfl⟩ := ofTuple_ok.1 h
    exact Tuple.expressible_of_ofElements hu
  · obtain ⟨_, _, -, ts, hts, _, -, rfl⟩ := ofSum_ok.1 h
    exact ⟨rfl, forall_of_mapM hts fun e t => Tuple.expressible_of_ofVariant⟩

theorem SumChange.expressible_of_alter {s s' : SumChange} {e : SExpr} (hs : s.Expressible)
    (h : s.alter e = .ok s') : s'.Expressible := by
  rcases alter_ok.1 h with ⟨_, -, _, -, rfl⟩ | ⟨_, -, ts, hts, rfl⟩
  · exact hs
  · have new := forall_of_mapM hts fun e t => Tuple.expressible_of_ofVariant
    exact List.forall_mem_append.2 ⟨hs, new⟩

theorem SumChange.expressible_of_ofArguments {e : SExpr} {es : List SExpr} {s : SumChange}
    (h : ofArguments e es = .ok s) : s.Expressible := by
  obtain ⟨_, _, -, tag, -, h⟩ := ofArguments_ok.1 h
  have bare : (⟨tag, [], [], e.location⟩ : SumChange).Expressible := by simp [Expressible]
  exact of_foldlM h bare fun _ _ _ _ => expressible_of_alter

theorem Permutation.expressible_of_alter {p p' : Permutation} {e : SExpr} (hp : p.Expressible)
    (h : p.alter e = .ok p') : p'.Expressible := by
  rcases alter_ok.1 h with ⟨_, -, _, -, rfl⟩ | ⟨_, -, ts, hts, rfl⟩ | ⟨_, -, s, hs, rfl⟩
  · exact ⟨hp.included, hp.sums⟩
  · have new := forall_of_mapM hts fun e t => DataType.expressible_of_ofSExpr
    exact ⟨List.forall_mem_append.2 ⟨hp.included, new⟩, hp.sums⟩
  · have new : ∀ t ∈ [s], t.Expressible := by
      simpa using SumChange.expressible_of_ofArguments hs
    exact ⟨hp.included, List.forall_mem_append.2 ⟨hp.sums, new⟩⟩

theorem Statement.expressible_of_ofBody {tag : String} {l : Location} {body : SExpr}
    {x : Statement} (h : ofBody tag l body = .ok x) : x.Expressible := by
  rcases ofBody_ok.1 h with ⟨_, -, ts, hts, rfl⟩ | ⟨_, _, -, base, -, p, hp, rfl⟩
  · exact forall_of_mapM hts fun e t => DataType.expressible_of_ofSExpr
  · have bare : (⟨tag, base, [], [], [], l⟩ : Permutation).Expressible := ⟨by simp, by simp⟩
    have done : p.Expressible :=
      of_foldlM hp bare fun _ _ _ _ => Permutation.expressible_of_alter
    exact done

theorem Statement.expressible_of_form {e : SExpr} {x : Statement}
    (h : Form.ofSExpr e = .ok (.statement x)) : x.Expressible := by
  rcases Form.statement_ok.1 h with ⟨_, -, h⟩ | ⟨_, -, h⟩
  · obtain ⟨_, _, -, _, -, h⟩ := ofDefine_ok.1 h
    exact expressible_of_ofBody h
  · obtain ⟨_, _, -, _, -, _, -, rfl⟩ := ofTransform_ok.1 h
    trivial

end TypeDomains
