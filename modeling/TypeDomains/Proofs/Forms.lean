import TypeDomains.Form
import TypeDomains.Proofs.Outcome

/-!
# Forms

When an s-expression is read as a model, one function at a time: which shape it has, which of its
parts are read, and what comes of them. A statement stands where its form does
(`Form.location_of_statement`).
-/

namespace TypeDomains

namespace SExpr

variable {e a b : SExpr} {es as : List SExpr} {head name : String}

theorem symbol_ok : e.symbol = .ok name ↔ e.symbol? = some name := by
  unfold symbol
  cases e.symbol? <;> simp [refuse]

theorem form_ok : e.form = .ok (name, es) ↔
    ∃ head names l, e = .list (head :: es) names l ∧ head.symbol = .ok name := by
  unfold form
  split
  · rename_i head arguments names l
    rw [map_ok]
    constructor
    · rintro ⟨n, hn, h⟩
      cases h
      exact ⟨head, names, l, rfl, hn⟩
    · rintro ⟨h, _, _, heq, hn⟩
      cases heq
      exact ⟨name, hn, rfl⟩
  · simp
  · rename_i hcons hnil
    constructor
    · simp [refuse]
    · rintro ⟨h, names, l, rfl, -⟩
      exact absurd rfl (hcons h es names l)

theorem first_ok : e.first head es = .ok (a, as) ↔ es = a :: as := by
  cases es <;> simp [first, refuse]

theorem only_ok : e.only head es = .ok a ↔ es = [a] := by
  unfold only
  split <;> simp_all [refuse]

theorem pair_ok : e.pair head es = .ok (a, b) ↔ es = [a, b] := by
  unfold pair
  split <;> simp_all [refuse]

end SExpr

theorem Ident.ofSExpr_ok {e : SExpr} {i : Ident} :
    ofSExpr e = .ok i ↔ ∃ name, e.symbol = .ok name ∧ ⟨name, e.location⟩ = i := by
  simp only [ofSExpr, bind_ok, pure_ok]

/-! ## References -/

namespace TypeRef

variable {e : SExpr} {r : TypeRef} {min : UInt32}

theorem minimum_ok : minimum e = .ok min ↔ ∃ names l, e = .atom (.integer min.toNat) names l := by
  unfold minimum
  split
  · rename_i n names l
    constructor
    · intro h
      split at h
      · rename_i bounds
        obtain rfl := Except.ok.inj h
        have exact : n = ((UInt32.ofNat n.toNat).toNat : Int) := by
          simp only [UInt32.toNat_ofNat']
          omega
        exact ⟨names, l, by rw [← exact]⟩
      · simp at h
    · rintro ⟨names, l, h⟩
      cases h
      have bound : (min.toNat : Int) ≤ 4294967295 := by
        have := min.toNat_lt
        omega
      simp [bound]
  · rename_i hne
    constructor
    · simp [SExpr.refuse]
    · rintro ⟨names, l, rfl⟩
      exact absurd rfl (hne _ names l)

theorem ofSExpr_ok : ofSExpr e = .ok r ↔
    (∃ name names l, e = .atom (.symbol name) names l ∧ ⟨name, .required, l⟩ = r) ∨
    (∃ head type names l, e = .list [head, type] names l ∧ head.symbol = .ok "?" ∧
      ∃ name, type.symbol = .ok name ∧ ⟨name, .optional, l⟩ = r) ∨
    ∃ head type number names l, e = .list [head, type, number] names l ∧ head.symbol = .ok "*" ∧
      ∃ name, type.symbol = .ok name ∧
        ∃ min, minimum number = .ok min ∧ ⟨name, .variadic min, l⟩ = r := by
  constructor
  · intro h
    unfold ofSExpr at h
    split at h
    · rename_i name names l
      exact .inl ⟨name, names, l, rfl, Except.ok.inj h⟩
    · rename_i head arguments names l
      obtain ⟨arity, harity, read⟩ := bind_ok.1 h
      split at read
      · simp only [bind_ok, pure_ok, SExpr.only_ok] at read
        obtain ⟨type, rfl, name⟩ := read
        exact .inr (.inl ⟨head, type, names, l, rfl, harity, name⟩)
      · simp only [bind_ok, pure_ok, Prod.exists, SExpr.pair_ok] at read
        obtain ⟨type, number, rfl, name⟩ := read
        exact .inr (.inr ⟨head, type, number, names, l, rfl, harity, name⟩)
      · simp [SExpr.refuse] at read
    · simp [SExpr.refuse] at h
  · rintro (⟨name, names, l, rfl, rfl⟩ | ⟨head, type, names, l, rfl, hhead, name, hname, rfl⟩ |
      ⟨head, type, number, names, l, rfl, hhead, name, hname, min, hmin, rfl⟩)
    · rfl
    · refine bind_ok.2 ⟨_, hhead, ?_⟩
      simp only [bind_ok, pure_ok, SExpr.only_ok]
      exact ⟨type, rfl, name, hname, rfl⟩
    · refine bind_ok.2 ⟨_, hhead, ?_⟩
      simp only [bind_ok, pure_ok, Prod.exists, SExpr.pair_ok]
      exact ⟨type, number, rfl, name, hname, min, hmin, rfl⟩

end TypeRef

/-! ## Elements -/

namespace Element

variable {e : SExpr} {x : Element}

theorem ofPart_ok : ofPart e = .ok x ↔ ∃ identifier, e.annotations = [identifier] ∧
    ∃ type, TypeRef.ofSExpr e = .ok type ∧ ⟨identifier, "", type, e.location⟩ = x := by
  unfold ofPart
  split
  · rename_i h
    simp [h, SExpr.refuse]
  · rename_i identifier h
    simp only [h, bind_ok, pure_ok, List.cons.injEq, and_true, exists_eq_left']
  · rename_i hnone hone
    constructor
    · simp [SExpr.refuse]
    · rintro ⟨identifier, h, -⟩
      exact absurd h (hone identifier)

/-- The identifier of a field, which is its tag unless an annotation says otherwise. -/
def fieldIdentifier (tag : String) : List String → Option String
  | [] => some tag
  | [identifier] => some identifier
  | _ => none

theorem ofField_ok : ofField e = .ok x ↔ ∃ field reference names l,
    e = .list [field, reference] names l ∧ ∃ tag, field.symbol = .ok tag ∧
      ∃ identifier, fieldIdentifier tag names = some identifier ∧
        ∃ type, TypeRef.ofSExpr reference = .ok type ∧ ⟨identifier, tag, type, l⟩ = x := by
  unfold ofField
  split
  · rename_i field reference names l
    simp only [bind_ok, SExpr.list.injEq, List.cons.injEq, and_true]
    constructor
    · rintro ⟨tag, htag, h⟩
      refine ⟨field, reference, names, l, ⟨⟨rfl, rfl⟩, rfl, rfl⟩, tag, htag, ?_⟩
      split at h
      · exact ⟨tag, rfl, bind_ok.1 h |>.imp fun r hr => ⟨hr.1, pure_ok.1 hr.2⟩⟩
      · exact ⟨_, rfl, bind_ok.1 h |>.imp fun r hr => ⟨hr.1, pure_ok.1 hr.2⟩⟩
      · simp [SExpr.refuse] at h
    · rintro ⟨_, _, _, _, ⟨⟨rfl, rfl⟩, rfl, rfl⟩, tag, htag, identifier, hnames, type, htype, rfl⟩
      refine ⟨tag, htag, ?_⟩
      unfold fieldIdentifier at hnames
      split at hnames
      · cases hnames
        exact bind_ok.2 ⟨type, htype, rfl⟩
      · cases hnames
        exact bind_ok.2 ⟨type, htype, rfl⟩
      · simp at hnames
  · rename_i hne
    constructor
    · simp [SExpr.refuse]
    · rintro ⟨field, reference, names, l, rfl, -⟩
      exact absurd rfl (hne field reference names l)

end Element

/-! ## Types -/

namespace Tuple

variable {e : SExpr} {es : List SExpr} {tag : String} {kind : TupleKind} {l : Location} {t : Tuple}

theorem ofElements_ok : ofElements tag kind es l = .ok t ↔
    ∃ xs, es.mapM (Element.ofSExpr kind) = .ok xs ∧ ⟨tag, kind, xs, false, l⟩ = t := by
  simp only [ofElements, bind_ok, pure_ok]

theorem variantKind_eq_record : variantKind es = .record ↔
    ∃ e ∈ es.head?, ∃ head ∈ e.head?, head ≠ "?" ∧ head ≠ "*" := by
  unfold variantKind
  cases es with
  | nil => simp
  | cons e es =>
    cases h : e.head? with
    | none => simp [h]
    | some head => by_cases arity : head = "?" ∨ head = "*" <;> simp_all; tauto

theorem ofVariant_ok : ofVariant e = .ok t ↔ ∃ tag es, e.form = .ok (tag, es) ∧
    ofElements tag (variantKind es) es e.location = .ok t := by
  simp only [ofVariant, bind_ok, Prod.exists]

end Tuple

namespace DataType

variable {e : SExpr} {es : List SExpr} {kind : TupleKind} {t : DataType}

theorem ofTuple_ok : ofTuple e kind es = .ok t ↔ ∃ head rest, es = head :: rest ∧
    ∃ tag, head.symbol = .ok tag ∧
      ∃ u, Tuple.ofElements tag kind rest e.location = .ok u ∧ .tuple u = t := by
  simp only [ofTuple, bind_ok, pure_ok, Prod.exists, SExpr.first_ok]

theorem ofSum_ok : ofSum e es = .ok t ↔ ∃ head rest, es = head :: rest ∧
    ∃ variants, rest.mapM Tuple.ofVariant = .ok variants ∧
      ∃ tag, head.symbol = .ok tag ∧ .sum ⟨tag, variants, false, e.location⟩ = t := by
  simp only [ofSum, bind_ok, pure_ok, Prod.exists, SExpr.first_ok]

theorem ofSExpr_ok : ofSExpr e = .ok t ↔
    (∃ (kind : TupleKind) (es : List SExpr), e.form = .ok (kind.keyword, es) ∧
      ofTuple e kind es = .ok t) ∨
    ∃ es, e.form = .ok ("sum", es) ∧ ofSum e es = .ok t := by
  simp only [ofSExpr, bind_ok, Prod.exists]
  constructor
  · rintro ⟨head, es, he, h⟩
    split at h
    · exact .inl ⟨.product, es, he, h⟩
    · exact .inl ⟨.record, es, he, h⟩
    · exact .inr ⟨es, he, h⟩
    · simp [SExpr.refuseHead] at h
  · rintro (⟨kind, es, he, h⟩ | ⟨es, he, h⟩)
    · refine ⟨_, es, he, ?_⟩
      cases kind <;> exact h
    · exact ⟨_, es, he, h⟩

end DataType

/-! ## Permutations -/

namespace SumChange

variable {s s' : SumChange} {e : SExpr} {es : List SExpr}

theorem alter_ok : s.alter e = .ok s' ↔
    (∃ es, e.form = .ok ("exclude", es) ∧
      ∃ is, es.mapM Ident.ofSExpr = .ok is ∧ { s with removed := s.removed ++ is } = s') ∨
    ∃ es, e.form = .ok ("include", es) ∧
      ∃ ts, es.mapM Tuple.ofVariant = .ok ts ∧ { s with added := s.added ++ ts } = s' := by
  simp only [alter, bind_ok, Prod.exists]
  constructor
  · rintro ⟨head, es, he, h⟩
    split at h
    · exact .inl ⟨es, he, by simpa only [bind_ok, pure_ok] using h⟩
    · exact .inr ⟨es, he, by simpa only [bind_ok, pure_ok] using h⟩
    · simp [SExpr.refuseHead] at h
  · rintro (⟨es, he, h⟩ | ⟨es, he, h⟩)
    · exact ⟨_, es, he, by simpa only [bind_ok, pure_ok] using h⟩
    · exact ⟨_, es, he, by simpa only [bind_ok, pure_ok] using h⟩

theorem ofArguments_ok : ofArguments e es = .ok s ↔ ∃ head rest, es = head :: rest ∧
    ∃ tag, head.symbol = .ok tag ∧ rest.foldlM alter ⟨tag, [], [], e.location⟩ = .ok s := by
  simp only [ofArguments, bind_ok, Prod.exists, SExpr.first_ok]

end SumChange

theorem Permutation.alter_ok {p p' : Permutation} {e : SExpr} : p.alter e = .ok p' ↔
    (∃ es, e.form = .ok ("exclude", es) ∧
      ∃ is, es.mapM Ident.ofSExpr = .ok is ∧ { p with excluded := p.excluded ++ is } = p') ∨
    (∃ es, e.form = .ok ("include", es) ∧
      ∃ ts, es.mapM DataType.ofSExpr = .ok ts ∧ { p with included := p.included ++ ts } = p') ∨
    ∃ es, e.form = .ok ("with", es) ∧
      ∃ s, SumChange.ofArguments e es = .ok s ∧ { p with sums := p.sums ++ [s] } = p' := by
  simp only [alter, bind_ok, Prod.exists]
  constructor
  · rintro ⟨head, es, he, h⟩
    split at h
    · exact .inl ⟨es, he, by simpa only [bind_ok, pure_ok] using h⟩
    · exact .inr (.inl ⟨es, he, by simpa only [bind_ok, pure_ok] using h⟩)
    · exact .inr (.inr ⟨es, he, by simpa only [bind_ok, pure_ok] using h⟩)
    · simp [SExpr.refuseHead] at h
  · rintro (⟨es, he, h⟩ | ⟨es, he, h⟩ | ⟨es, he, h⟩)
    · exact ⟨_, es, he, by simpa only [bind_ok, pure_ok] using h⟩
    · exact ⟨_, es, he, by simpa only [bind_ok, pure_ok] using h⟩
    · exact ⟨_, es, he, by simpa only [bind_ok, pure_ok] using h⟩

/-! ## Statements -/

namespace Statement

variable {tag : String} {l : Location} {e body : SExpr} {es : List SExpr} {x : Statement}

theorem ofBody_ok : ofBody tag l body = .ok x ↔
    (∃ es, body.form = .ok ("domain", es) ∧
      ∃ ts, es.mapM DataType.ofSExpr = .ok ts ∧ .domain ⟨tag, ts, l⟩ = x) ∨
    ∃ base es, body.form = .ok ("permute_domain", base :: es) ∧
      ∃ name, base.symbol = .ok name ∧
        ∃ p, es.foldlM Permutation.alter ⟨tag, name, [], [], [], l⟩ = .ok p ∧
          .permutation p = x := by
  simp only [ofBody, bind_ok, Prod.exists]
  constructor
  · rintro ⟨head, es, he, h⟩
    split at h
    · exact .inl ⟨es, he, by simpa only [bind_ok, pure_ok] using h⟩
    · simp only [bind_ok, pure_ok, Prod.exists, SExpr.first_ok] at h
      obtain ⟨base, rest, rfl, h⟩ := h
      exact .inr ⟨base, rest, he, h⟩
    · simp [SExpr.refuseHead] at h
  · rintro (⟨es, he, h⟩ | ⟨base, es, he, h⟩)
    · exact ⟨_, es, he, by simpa only [bind_ok, pure_ok] using h⟩
    · refine ⟨_, _, he, ?_⟩
      simp only [bind_ok, pure_ok, Prod.exists, SExpr.first_ok]
      exact ⟨base, es, rfl, h⟩

theorem ofDefine_ok : ofDefine e es = .ok x ↔ ∃ name body, es = [name, body] ∧
    ∃ tag, name.symbol = .ok tag ∧ ofBody tag e.location body = .ok x := by
  simp only [ofDefine, bind_ok, Prod.exists, SExpr.pair_ok]

theorem ofTransform_ok : ofTransform e es = .ok x ↔ ∃ source destination,
    es = [source, destination] ∧ ∃ a, source.symbol = .ok a ∧
      ∃ b, destination.symbol = .ok b ∧ .transform ⟨a, b, e.location⟩ = x := by
  simp only [ofTransform, bind_ok, pure_ok, Prod.exists, SExpr.pair_ok]

end Statement

theorem Form.statement_ok {e : SExpr} {x : Statement} : ofSExpr e = .ok (.statement x) ↔
    (∃ es, e.form = .ok ("define", es) ∧ Statement.ofDefine e es = .ok x) ∨
    ∃ es, e.form = .ok ("transform", es) ∧ Statement.ofTransform e es = .ok x := by
  simp only [ofSExpr, bind_ok, Prod.exists]
  constructor
  · rintro ⟨head, es, he, h⟩
    split at h
    · refine .inl ⟨es, he, ?_⟩
      simpa only [bind_ok, pure_ok, statement.injEq, exists_eq_right] using h
    · refine .inr ⟨es, he, ?_⟩
      simpa only [bind_ok, pure_ok, statement.injEq, exists_eq_right] using h
    · simp only [bind_ok, pure_ok, reduceCtorEq, and_false, exists_false] at h
    · simp at h
  · rintro (⟨es, he, h⟩ | ⟨es, he, h⟩)
    · refine ⟨_, es, he, ?_⟩
      simpa only [bind_ok, pure_ok, statement.injEq, exists_eq_right] using h
    · refine ⟨_, es, he, ?_⟩
      simpa only [bind_ok, pure_ok, statement.injEq, exists_eq_right] using h

/-! ## Places -/

theorem Permutation.location_of_alter {p q : Permutation} {e : SExpr} (h : p.alter e = .ok q) :
    q.location = p.location := by
  rcases alter_ok.1 h with ⟨_, -, _, -, rfl⟩ | ⟨_, -, _, -, rfl⟩ | ⟨_, -, _, -, rfl⟩
  · rfl
  · rfl
  · rfl

theorem Permutation.location_of_alterations {p q : Permutation} {es : List SExpr}
    (h : es.foldlM alter p = .ok q) : q.location = p.location := by
  refine of_foldlM (P := fun r => r.location = p.location) h rfl ?_
  intro e _ before after same step
  rw [location_of_alter step, same]

theorem Statement.location_of_ofBody {tag : String} {l : Location} {body : SExpr} {x : Statement}
    (h : ofBody tag l body = .ok x) : x.location = l := by
  rcases ofBody_ok.1 h with ⟨_, -, _, -, rfl⟩ | ⟨_, _, -, _, -, p, hp, rfl⟩
  · rfl
  · exact Permutation.location_of_alterations hp

theorem Form.location_of_statement {e : SExpr} {x : Statement}
    (h : Form.ofSExpr e = .ok (.statement x)) : x.location = e.location := by
  rcases statement_ok.1 h with ⟨_, -, h⟩ | ⟨_, -, h⟩
  · obtain ⟨_, _, -, _, -, h⟩ := Statement.ofDefine_ok.1 h
    exact Statement.location_of_ofBody h
  · obtain ⟨_, _, -, _, -, _, -, rfl⟩ := Statement.ofTransform_ok.1 h
    rfl

end TypeDomains
