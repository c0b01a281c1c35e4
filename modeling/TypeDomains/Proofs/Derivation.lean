import Mathlib.Data.List.Chain
import TypeDomains.Proofs.Grammar

/-!
# Derivations of values

How a row of tokens comes to be a row of values: a value is a token of its own, a list between
parentheses, or a value behind one more annotation. A row of tokens spells values exactly if there
are derivations with these tokens (`spelled_iff`), and then there is no other choice of them
(`Derivation.unique`).
-/

namespace TypeDomains

/-- A token that is a value of its own. -/
structure Leaf where
  token : Token
  atom : Atom
  spells : token.lexeme.atom? = some atom

/-- A name and the `::` behind it. -/
structure Mark where
  token : Token
  name : String
  colons : Location
  names : token.lexeme.name? = some name

inductive Derivation where
  | leaf (l : Leaf)
  | list (opening : Location) (items : List Derivation) (closing : Location)
  | marked (m : Mark) (value : Derivation)

/-- What a token is in a derivation. -/
inductive Role where
  | value
  | mark
  | parenthesis
  deriving DecidableEq, Repr

theorem Leaf.eq_of_token {a b : Leaf} (h : a.token = b.token) : a = b := by
  obtain ⟨t, x, hx⟩ := a
  obtain ⟨u, y, hy⟩ := b
  obtain rfl : t = u := h
  obtain rfl : x = y := Option.some.inj (hx.symm.trans hy)
  rfl

theorem Mark.eq_of_tokens {a b : Mark} (h : a.token = b.token) (hc : a.colons = b.colons) :
    a = b := by
  obtain ⟨t, name, l, hname⟩ := a
  obtain ⟨u, name', l', hname'⟩ := b
  obtain rfl : t = u := h
  obtain rfl : l = l' := hc
  obtain rfl : name = name' := Option.some.inj (hname.symm.trans hname')
  rfl

namespace Derivation

@[elab_as_elim]
theorem induct {P : Derivation → Prop} (leaf : ∀ l, P (.leaf l))
    (list : ∀ opening items closing, (∀ d ∈ items, P d) → P (.list opening items closing))
    (marked : ∀ m value, P value → P (.marked m value)) : ∀ d, P d
  | .leaf l => leaf l
  | .list opening items closing =>
    list opening items closing fun d _ => induct leaf list marked d
  | .marked m value => marked m value (induct leaf list marked value)

/-- The tokens in order, each with its role. -/
def parts : Derivation → List (Token × Role)
  | leaf l => [(l.token, .value)]
  | list opening items closing =>
    (⟨.opening, opening⟩, .parenthesis) :: items.flatMap parts ++
      [(⟨.closing, closing⟩, .parenthesis)]
  | marked m value => (m.token, .mark) :: (⟨.colons, m.colons⟩, .mark) :: value.parts

def tokens (d : Derivation) : List Token := d.parts.map Prod.fst

/-- The value that is derived. -/
def value : Derivation → SExpr
  | leaf l => .atom l.atom [] l.token.location
  | list opening items _ => .list (items.map value) [] opening
  | marked m d => d.value.annotated m.name m.token.location

@[simp]
theorem tokens_leaf (l : Leaf) : (leaf l).tokens = [l.token] := by
  simp [tokens, parts]

@[simp]
theorem tokens_list (opening closing : Location) (ds : List Derivation) :
    (list opening ds closing).tokens =
      ⟨.opening, opening⟩ :: ds.flatMap tokens ++ [⟨.closing, closing⟩] := by
  simp only [tokens, parts, List.map_append, List.map_cons, List.map_flatMap, List.map_nil]
  rfl

@[simp]
theorem tokens_marked (m : Mark) (d : Derivation) :
    (marked m d).tokens = m.token :: ⟨.colons, m.colons⟩ :: d.tokens := by
  simp [tokens, parts]

@[simp]
theorem value_leaf (l : Leaf) : (leaf l).value = .atom l.atom [] l.token.location := by
  rw [value]

@[simp]
theorem value_list (opening closing : Location) (ds : List Derivation) :
    (list opening ds closing).value = .list (ds.map value) [] opening := by
  rw [value]

@[simp]
theorem value_marked (m : Mark) (d : Derivation) :
    (marked m d).value = d.value.annotated m.name m.token.location := by
  rw [value]

/-! ## The values of a row of tokens -/

theorem spelled_flatMap {ds : List Derivation} {ts : List Token} {es : List SExpr}
    (hds : ∀ d ∈ ds, ∀ ts es, SExpr.Spelled ts es → SExpr.Spelled (d.tokens ++ ts) (d.value :: es))
    (h : SExpr.Spelled ts es) : SExpr.Spelled (ds.flatMap tokens ++ ts) (ds.map value ++ es) := by
  induction ds with
  | nil => exact h
  | cons d ds ih =>
    obtain ⟨hd, hds⟩ := List.forall_mem_cons.1 hds
    rw [List.flatMap_cons, List.append_assoc]
    exact hd _ _ (ih hds)

theorem spelled_cons (d : Derivation) (ts : List Token) (es : List SExpr)
    (h : SExpr.Spelled ts es) : SExpr.Spelled (d.tokens ++ ts) (d.value :: es) := by
  induction d using induct generalizing ts es with
  | leaf l =>
    rw [tokens_leaf, value_leaf]
    exact .atom l.spells h
  | list opening ds closing ih =>
    have items := spelled_flatMap ih .nil
    rw [List.append_nil, List.append_nil] at items
    rw [tokens_list, value_list, List.append_assoc]
    exact .list items h
  | marked m d ih =>
    rw [tokens_marked, value_marked]
    exact .annotated m.names (ih ts es h)

theorem exists_of_spelled {ts : List Token} {es : List SExpr} (h : SExpr.Spelled ts es) :
    ∃ ds : List Derivation, ds.flatMap tokens = ts ∧ ds.map value = es := by
  induction h with
  | nil => exact ⟨[], rfl, rfl⟩
  | @atom x a l ts es hx _ ih =>
    obtain ⟨ds, rfl, rfl⟩ := ih
    exact ⟨leaf ⟨⟨x, l⟩, a, hx⟩ :: ds, by simp, by simp⟩
  | @list l m ts us es fs _ _ ihes ihfs =>
    obtain ⟨items, rfl, rfl⟩ := ihes
    obtain ⟨ds, rfl, rfl⟩ := ihfs
    exact ⟨list l items m :: ds, by simp, by simp⟩
  | @annotated x name l m ts e es hx _ ih =>
    obtain ⟨ds, rfl, hds⟩ := ih
    obtain ⟨d, ds, rfl, rfl, rfl⟩ := List.map_eq_cons_iff.1 hds
    exact ⟨marked ⟨⟨x, l⟩, name, m, hx⟩ d :: ds, by simp, by simp⟩

theorem spelled_iff {ts : List Token} {es : List SExpr} :
    SExpr.Spelled ts es ↔ ∃ ds : List Derivation, ds.flatMap tokens = ts ∧ ds.map value = es := by
  constructor
  · exact exists_of_spelled
  · rintro ⟨ds, rfl, rfl⟩
    have all : SExpr.Spelled (ds.flatMap tokens ++ []) (ds.map value ++ []) :=
      spelled_flatMap (fun d _ => d.spelled_cons) .nil
    rwa [List.append_nil, List.append_nil] at all

/-! ## One derivation -/

/-- No value starts with `::` or a closing parenthesis. -/
theorem tokens_eq_cons (d : Derivation) :
    ∃ t ts, d.tokens = t :: ts ∧ t.lexeme ≠ .colons ∧ t.lexeme ≠ .closing := by
  cases d with
  | leaf l =>
    refine ⟨l.token, [], tokens_leaf l, ?_, ?_⟩
    · intro h
      simpa [h, Lexeme.atom?] using l.spells
    · intro h
      simpa [h, Lexeme.atom?] using l.spells
  | list opening ds closing => exact ⟨_, _, tokens_list opening closing ds, by simp, by simp⟩
  | marked m d =>
    refine ⟨m.token, _, tokens_marked m d, ?_, ?_⟩
    · intro h
      simpa [h, Lexeme.name?] using m.names
    · intro h
      simpa [h, Lexeme.name?] using m.names

/-- The row is at its end or at the end of a list. -/
def Closes (ts : List Token) : Prop := ∀ t ∈ ts.head?, t.lexeme = .closing

theorem noColons_flatMap (ds : List Derivation) {ts : List Token} (h : Closes ts) :
    Reading.NoColons (ds.flatMap tokens ++ ts) := by
  cases ds with
  | nil =>
    intro t ht
    simp [h t ht]
  | cons d ds =>
    obtain ⟨t, us, ht, colons, -⟩ := d.tokens_eq_cons
    simpa [Reading.NoColons, ht] using colons

/-- What stands behind the derivation tells it from all others, unless it is a `::`. -/
def Cancels (d : Derivation) : Prop :=
  ∀ d' ts ts', Reading.NoColons ts → Reading.NoColons ts' → d.tokens ++ ts = d'.tokens ++ ts' →
    d = d' ∧ ts = ts'

theorem cancel_flatMap {ds : List Derivation} (hds : ∀ d ∈ ds, d.Cancels) {ds' : List Derivation}
    {ts ts' : List Token} (hts : Closes ts) (hts' : Closes ts')
    (h : ds.flatMap tokens ++ ts = ds'.flatMap tokens ++ ts') : ds = ds' ∧ ts = ts' := by
  have apart (d : Derivation) (us : List Token) {ts : List Token} (hts : Closes ts) :
      ts ≠ d.tokens ++ us := by
    rintro rfl
    obtain ⟨t, vs, ht, -, closing⟩ := d.tokens_eq_cons
    exact closing (hts t (by simp [ht]))
  induction ds generalizing ds' with
  | nil =>
    cases ds' with
    | nil => exact ⟨rfl, h⟩
    | cons d' ds' =>
      rw [List.flatMap_cons, List.append_assoc] at h
      exact absurd h (apart d' _ hts)
  | cons d ds ih =>
    obtain ⟨hd, hds⟩ := List.forall_mem_cons.1 hds
    rw [List.flatMap_cons, List.append_assoc] at h
    cases ds' with
    | nil => exact absurd h.symm (apart d _ hts')
    | cons d' ds' =>
      rw [List.flatMap_cons, List.append_assoc] at h
      obtain ⟨rfl, rest⟩ := hd d' _ _ (noColons_flatMap ds hts) (noColons_flatMap ds' hts') h
      obtain ⟨rfl, rfl⟩ := ih hds rest
      exact ⟨rfl, rfl⟩

theorem cancels (d : Derivation) : d.Cancels := by
  induction d using induct with
  | leaf l =>
    intro d' ts ts' hts _ h
    cases d' with
    | leaf l' =>
      obtain ⟨token, rest⟩ := by simpa using h
      exact ⟨congrArg leaf (Leaf.eq_of_token token), rest⟩
    | list opening ds closing =>
      obtain ⟨token, -⟩ := by simpa using h
      simpa [token, Lexeme.atom?] using l.spells
    | marked m d' =>
      obtain ⟨-, rest⟩ := by simpa using h
      simp [rest, Reading.NoColons] at hts
  | list opening ds closing ih =>
    intro d' ts ts' _ _ h
    cases d' with
    | leaf l =>
      obtain ⟨token, -⟩ := by simpa using h
      simpa [← token, Lexeme.atom?] using l.spells
    | list opening' ds' closing' =>
      obtain ⟨rfl, rest⟩ := by simpa using h
      obtain ⟨rfl, rest⟩ := cancel_flatMap ih (by simp [Closes]) (by simp [Closes]) rest
      obtain ⟨rfl, rfl⟩ := by simpa using rest
      exact ⟨rfl, rfl⟩
    | marked m d' =>
      obtain ⟨token, -⟩ := by simpa using h
      simpa [← token, Lexeme.name?] using m.names
  | marked m d ih =>
    intro d' ts ts' hts hts' h
    cases d' with
    | leaf l =>
      obtain ⟨-, rest⟩ := by simpa using h
      simp [← rest, Reading.NoColons] at hts'
    | list opening ds closing =>
      obtain ⟨token, -⟩ := by simpa using h
      simpa [token, Lexeme.name?] using m.names
    | marked m' d' =>
      obtain ⟨token, colons, rest⟩ := by simpa using h
      obtain ⟨rfl, rfl⟩ := ih d' ts ts' hts hts' rest
      exact ⟨by rw [Mark.eq_of_tokens token colons], rfl⟩

/-- A row of tokens has one derivation at most. -/
theorem unique {ds ds' : List Derivation} (h : ds.flatMap tokens = ds'.flatMap tokens) :
    ds = ds' := by
  have whole : ds.flatMap tokens ++ [] = ds'.flatMap tokens ++ [] := by rw [h]
  have closes : Closes [] := by simp [Closes]
  exact (cancel_flatMap (fun d _ => d.cancels) closes closes whole).1

/-! ## Roles -/

/-- Only what annotates has a `::` behind it. -/
def Annotates (p q : Token × Role) : Prop := q.1.lexeme = .colons → p.2 = .mark

theorem head?_parts (d : Derivation) : ∀ p ∈ d.parts.head?, p.1.lexeme ≠ .colons := by
  obtain ⟨t, ts, ht, colons, -⟩ := d.tokens_eq_cons
  obtain ⟨p, ps, hp, rfl, -⟩ := List.map_eq_cons_iff.1 ht
  simpa [hp] using colons

theorem head?_flatMap_parts (ds : List Derivation) :
    ∀ p ∈ (ds.flatMap parts).head?, p.1.lexeme ≠ .colons := by
  cases ds with
  | nil => simp
  | cons d ds =>
    obtain ⟨t, ts, ht, -⟩ := d.tokens_eq_cons
    obtain ⟨p, ps, hp, -⟩ := List.map_eq_cons_iff.1 ht
    simpa [hp] using d.head?_parts p (by simp [hp])

theorem isChain_flatMap {ds : List Derivation} (hds : ∀ d ∈ ds, d.parts.IsChain Annotates) :
    (ds.flatMap parts).IsChain Annotates := by
  induction ds with
  | nil => simp
  | cons d ds ih =>
    obtain ⟨hd, hds⟩ := List.forall_mem_cons.1 hds
    rw [List.flatMap_cons]
    exact hd.append (ih hds) fun p _ q hq colons => absurd colons (head?_flatMap_parts ds q hq)

theorem isChain_parts (d : Derivation) : d.parts.IsChain Annotates := by
  induction d using induct with
  | leaf l => simp [parts]
  | list opening ds closing ih =>
    let last : Token × Role := (⟨.closing, closing⟩, .parenthesis)
    have plain : ∀ q ∈ [last].head?, q.1.lexeme ≠ .colons := by simp [last]
    have inside : (ds.flatMap parts ++ [last]).IsChain Annotates :=
      (isChain_flatMap ih).append (.singleton _) fun p _ q hq colons => absurd colons (plain q hq)
    rw [parts, List.cons_append]
    refine inside.cons fun q hq colons => ?_
    cases hds : ds.flatMap parts with
    | nil => exact absurd colons (plain q (by simpa [hds, last] using hq))
    | cons p ps => exact absurd colons (head?_flatMap_parts ds q (by simpa [hds] using hq))
  | marked m d ih =>
    rw [parts]
    exact (ih.cons fun q hq colons => absurd colons (d.head?_parts q hq)).cons fun q hq _ => rfl

/-- A token with `::` behind it is a mark, and no value. -/
theorem role_of_colons {ds : List Derivation} {before after : List (Token × Role)}
    {p q : Token × Role} (h : ds.flatMap parts = before ++ p :: q :: after)
    (colons : q.1.lexeme = .colons) : p.2 = .mark := by
  have chain := isChain_flatMap fun d (_ : d ∈ ds) => d.isChain_parts
  rw [h] at chain
  exact (List.isChain_cons_cons.1 chain.right_of_append).1 colons

end Derivation

end TypeDomains
