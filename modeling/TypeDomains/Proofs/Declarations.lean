import TypeDomains.Proofs.Grammar
import TypeDomains.Proofs.Scanning
import TypeDomains.Proofs.Unlocated

/-!
# Declarations

The values that what is written of a model spells. The text of a model is read as its
s-expression, wherever it stands (`Universe.writes`).
-/

namespace TypeDomains

/-! ## Texts that spell values -/

/-- In front of a separator, the text spells the values up to their locations. -/
def Writes (w : List Char) (es : List SExpr) : Prop :=
  ∃ xs, Lexes w xs ∧ ∀ ts : List Token, ts.map Token.lexeme = xs →
    ∃ fs, SExpr.Spelled ts fs ∧ fs.map SExpr.unlocated = es

namespace SExpr

/-- A symbol whose location does not matter. -/
def named (name : String) : SExpr := atom (.symbol name) [] .unknown

/-- A list whose location does not matter. -/
def row (es : List SExpr) : SExpr := list es [] .unknown

theorem unlocated_annotated (name : String) (l : Location) (e : SExpr) :
    (e.annotated name l).unlocated = e.unlocated.annotated name .unknown := by
  cases e <;> simp [annotated]

end SExpr

theorem Name.atom?_lexeme (name : String) : (lexeme name).atom? = some (.symbol name) := by
  unfold lexeme
  split <;> rfl

theorem Name.name?_lexeme (name : String) : (lexeme name).name? = some name := by
  unfold lexeme
  split <;> rfl

namespace Writes

variable {v w : List Char} {es fs : List SExpr} {e : SExpr} {c : Char}

theorem nil : Writes [] [] := by
  refine ⟨[], .nil, fun ts hts => ⟨[], ?_, rfl⟩⟩
  rw [List.map_eq_nil_iff.1 hts]
  exact .nil

theorem append (hw : Writes w es) (hv : Writes v fs) (ends : Ends v) :
    Writes (w ++ v) (es ++ fs) := by
  obtain ⟨xs, hxs, hw⟩ := hw
  obtain ⟨ys, hys, hv⟩ := hv
  refine ⟨xs ++ ys, hxs.append hys ends, ?_⟩
  intro ts hts
  obtain ⟨ts₁, ts₂, rfl, h₁, h₂⟩ := List.map_eq_append_iff.1 hts
  obtain ⟨es', hes, rfl⟩ := hw ts₁ h₁
  obtain ⟨fs', hfs, rfl⟩ := hv ts₂ h₂
  exact ⟨es' ++ fs', hes.append hfs, List.map_append⟩

theorem blanks (hv : ∀ c ∈ v, isBlank c) (hw : Writes w es) : Writes (v ++ w) es := by
  obtain ⟨xs, hxs, hw⟩ := hw
  exact ⟨xs, hxs.blanks hv, hw⟩

theorem space (hw : Writes w es) : Writes (' ' :: w) es :=
  hw.blanks (v := [' ']) (List.forall_mem_singleton.2 (by decide))

/-- A token that is a value of its own. -/
theorem of_lexes {x : Lexeme} {a : Atom} (hw : Lexes w [x]) (ha : x.atom? = some a) :
    Writes w [.atom a [] .unknown] := by
  refine ⟨[x], hw, ?_⟩
  intro ts hts
  obtain ⟨t, rfl, rfl⟩ := List.map_eq_singleton_iff.1 hts
  exact ⟨_, .atom ha .nil, by simp⟩

theorem name (name : String) : Writes (Name.written name) [.named name] :=
  of_lexes (lexes_name name) (Name.atom?_lexeme name)

theorem keyword {name : String} (h : Name.isPlain name.toList) :
    Writes name.toList [.named name] := by
  have := Writes.name name
  rwa [Name.written, if_pos h] at this

theorem operator (hc : c = '?' ∨ c = '*') : Writes [c] [.named (.ofList [c])] :=
  of_lexes (lexes_operator hc) rfl

theorem digits {n : Nat} (hn : n ≤ 9223372036854775807) :
    Writes (Nat.toDigits 10 n) [.atom (.integer n) [] .unknown] :=
  of_lexes (lexes_digits hn) rfl

theorem parentheses (hw : Writes w es) : Writes ('(' :: w ++ [')']) [.row es] := by
  obtain ⟨xs, hxs, hw⟩ := hw
  refine ⟨_, hxs.parentheses, ?_⟩
  intro ts hts
  obtain ⟨ts₁, ts₂, rfl, h₁, h₂⟩ := List.map_eq_append_iff.1 hts
  obtain ⟨⟨_, l⟩, ts, rfl, rfl, inner⟩ := List.map_eq_cons_iff.1 h₁
  obtain ⟨⟨_, m⟩, rfl, rfl⟩ := List.map_eq_singleton_iff.1 h₂
  obtain ⟨fs, hfs, rfl⟩ := hw ts inner
  exact ⟨_, .list hfs .nil, by simp [SExpr.row]⟩

theorem annotation (name : String) (hw : Writes w (e :: es)) :
    Writes (Name.written name ++ "::".toList ++ w) (e.annotated name .unknown :: es) := by
  obtain ⟨xs, hxs, hw⟩ := hw
  refine ⟨_, hxs.annotation name, ?_⟩
  intro ts hts
  obtain ⟨⟨_, l⟩, us, rfl, rfl, behind⟩ := List.map_eq_cons_iff.1 hts
  obtain ⟨⟨_, m⟩, vs, rfl, rfl, value⟩ := List.map_eq_cons_iff.1 behind
  obtain ⟨fs, hfs, heq⟩ := hw vs value
  obtain ⟨f, fs, rfl, rfl, rfl⟩ := List.map_eq_cons_iff.1 heq
  exact ⟨_, .annotated (Name.name?_lexeme name) hfs, by simp [SExpr.unlocated_annotated]⟩

end Writes

/-- What may stand behind a keyword: it starts with a separator, and is empty only if there are no
values. -/
structure WritesArguments (w : List Char) (es : List SExpr) : Prop where
  writes : Writes w es
  ends : Ends w
  empty : w = [] ↔ es = []

/-- One value behind the other, each of them behind a separator of its own. -/
theorem arguments_flatMap {α : Type} {f : α → List Char} {g : α → SExpr} (as : List α)
    (h : ∀ a ∈ as, Writes (f a) [g a]) (ends : ∀ a, Ends (f a)) (nonempty : ∀ a, f a ≠ []) :
    WritesArguments (as.flatMap f) (as.map g) := by
  induction as with
  | nil => exact ⟨.nil, ends_nil, by simp⟩
  | cons a as ih =>
    obtain ⟨ha, has⟩ := List.forall_mem_cons.1 h
    have rest := ih has
    exact ⟨ha.append rest.writes rest.ends, (ends a).append rest.ends, by simp [nonempty a]⟩

theorem ends_space {cs : List Char} : Ends (' ' :: cs) := ends_cons.2 (by decide)

/-! ## References and elements -/

namespace TypeRef

/-- The s-expression that the reference is written as. -/
def sexpr (r : TypeRef) : SExpr :=
  match r.arity with
  | .required => .named r.name
  | .optional => .row [.named "?", .named r.name]
  | .variadic min => .row [.named "*", .named r.name, .atom (.integer min.toNat) [] .unknown]

theorem writes (r : TypeRef) : Writes r.written [r.sexpr] := by
  unfold written sexpr
  have name := Writes.name r.name
  cases r.arity with
  | required => exact name
  | optional =>
    have arguments := name.space
    exact ((Writes.operator (.inl rfl)).append arguments ends_space).parentheses
  | variadic min =>
    have bound : min.toNat ≤ 9223372036854775807 := by
      have := min.toNat_lt
      omega
    have number := (Writes.digits bound).space
    have arguments := (name.append number ends_space).space
    have all := ((Writes.operator (.inr rfl)).append arguments ends_space).parentheses
    simpa using all

end TypeRef

namespace Element

/-- The s-expression that the element is written as in a tuple of that kind. -/
def sexpr (kind : TupleKind) (e : Element) : SExpr :=
  match kind with
  | .product => e.type.sexpr.annotated e.identifier .unknown
  | .record =>
    let field := .row [.named e.tag, e.type.sexpr]
    if e.identifier = e.tag then field else field.annotated e.identifier .unknown

theorem writes (kind : TupleKind) (e : Element) : Writes (e.written kind) [e.sexpr kind] := by
  unfold written sexpr
  cases kind with
  | product => exact e.type.writes.annotation e.identifier
  | record =>
    have type := e.type.writes.space
    have field := ((Writes.name e.tag).append type ends_space).parentheses
    by_cases h : e.identifier = e.tag
    · simp only [if_pos h]
      exact field
    · simpa [if_neg h] using field.annotation e.identifier

end Element

/-! ## Types -/

namespace Tuple

/-- What the tuple's body is written as. -/
def sexprs (t : Tuple) : List SExpr := .named t.tag :: t.elements.map (Element.sexpr t.kind)

theorem writes_body (t : Tuple) : Writes t.body t.sexprs := by
  have elements := arguments_flatMap t.elements (fun e _ => (e.writes t.kind).space)
    (fun _ => ends_space) fun _ => by simp
  exact (Writes.name t.tag).append elements.writes elements.ends

def sexprAsVariant (t : Tuple) : SExpr := .row t.sexprs

theorem writes_asVariant (t : Tuple) : Writes t.writtenAsVariant [t.sexprAsVariant] :=
  t.writes_body.parentheses

end Tuple

theorem isBlank_of_mem_lineBreak {depth : Nat} : ∀ c ∈ lineBreak depth, isBlank c := by
  intro c hc
  rcases List.mem_cons.1 hc with rfl | hc
  · decide
  · rw [List.eq_of_mem_replicate hc]
    decide

theorem ends_lineBreak {depth : Nat} {cs : List Char} : Ends (lineBreak depth ++ cs) :=
  ends_cons.2 (by decide)

namespace Writes

theorem line {w : List Char} {es : List SExpr} (depth : Nat) (hw : Writes w es) :
    Writes (lineBreak depth ++ w) es :=
  hw.blanks isBlank_of_mem_lineBreak

/-- A keyword and what follows it on its line or on the next ones, in parentheses. -/
theorem form {w : List Char} {es : List SExpr} (hw : Writes w es) (ends : Ends w)
    (keyword : String) (plain : Name.isPlain keyword.toList) :
    Writes ('(' :: keyword.toList ++ w ++ [')']) [.row (.named keyword :: es)] :=
  ((Writes.keyword plain).append hw ends).parentheses

end Writes

/-- One value to a line. -/
theorem arguments_lines {α : Type} {f : α → List Char} {g : α → SExpr} (as : List α) (depth : Nat)
    (h : ∀ a ∈ as, Writes (f a) [g a]) :
    WritesArguments (as.flatMap fun a => lineBreak depth ++ f a) (as.map g) :=
  arguments_flatMap as (fun a ha => (h a ha).line depth) (fun _ => ends_lineBreak)
    fun _ => by simp [lineBreak]

theorem Tuple.arguments_variants (depth : Nat) (ts : List Tuple) :
    WritesArguments (writtenAsVariants depth ts) (ts.map sexprAsVariant) :=
  arguments_lines ts depth fun t _ => t.writes_asVariant

namespace DataType

/-- What the type is written as. A built-in type has no declaration. -/
def sexpr : DataType → SExpr
  | builtin b => .named b.tag
  | tuple t => .row (.named t.kind.keyword :: t.sexprs)
  | sum s => .row (.named "sum" :: .named s.tag :: s.variants.map Tuple.sexprAsVariant)

theorem writes (depth : Nat) (t : DataType) : Writes (t.written depth) [t.sexpr] := by
  cases t with
  | builtin b => cases b <;> exact .keyword (by decide)
  | tuple t =>
    have body := t.writes_body.space
    have plain : Name.isPlain t.kind.keyword.toList := by cases t.kind <;> decide
    simpa [written_tuple, sexpr] using body.form ends_space t.kind.keyword plain
  | sum s =>
    have variants := Tuple.arguments_variants (depth + 1) s.variants
    have body := ((Writes.name s.tag).append variants.writes variants.ends).space
    exact body.form ends_space "sum" (by decide)

theorem arguments_all (depth : Nat) (ts : List DataType) :
    WritesArguments (writtenAll depth ts) (ts.map sexpr) :=
  arguments_lines ts depth fun t _ => t.writes depth

end DataType

namespace Domain

def sexpr (d : Domain) : SExpr :=
  .row [.named "define", .named d.tag, .row (.named "domain" :: d.types.map DataType.sexpr)]

theorem writes (d : Domain) : Writes d.written [d.sexpr] := by
  have types := DataType.arguments_all 2 d.types
  have body := (types.writes.form types.ends "domain" (by decide)).line 1
  have all := ((Writes.name d.tag).append body (ends_lineBreak)).space
  have form := all.form ends_space "define" (by decide)
  unfold written sexpr
  simpa using form

end Domain

/-! ## Alterations -/

def Ident.sexpr (i : Ident) : SExpr := .named i.name

theorem Ident.arguments_all (is : List Ident) : WritesArguments (writtenAll is) (is.map sexpr) :=
  arguments_flatMap is (fun i _ => (Writes.name i.name).space) (fun _ => ends_space)
    fun _ => by simp

/-- An alteration is not written if it has no arguments. -/
def SExpr.alteration (keyword : String) (arguments : List SExpr) : List SExpr :=
  if arguments = [] then [] else [.row (.named keyword :: arguments)]

theorem alteration_of_ne_nil {depth : Nat} {keyword : String} {w : List Char} (h : w ≠ []) :
    alteration depth keyword w = lineBreak depth ++ ('(' :: keyword.toList ++ w ++ [')']) := by
  simp [alteration, h]

theorem ends_alteration (depth : Nat) (keyword : String) (arguments : List Char) :
    Ends (alteration depth keyword arguments) := by
  by_cases h : arguments = []
  · rw [alteration, if_pos h]
    exact ends_nil
  · rw [alteration_of_ne_nil h]
    exact ends_lineBreak

theorem WritesArguments.alteration {w : List Char} {es : List SExpr} (hw : WritesArguments w es)
    (depth : Nat) (keyword : String) (plain : Name.isPlain keyword.toList) :
    Writes (TypeDomains.alteration depth keyword w) (SExpr.alteration keyword es) := by
  by_cases h : w = []
  · rw [TypeDomains.alteration, if_pos h, SExpr.alteration, if_pos (hw.empty.1 h)]
    exact .nil
  · rw [alteration_of_ne_nil h, SExpr.alteration, if_neg (hw.empty.not.1 h)]
    exact (hw.writes.form hw.ends keyword plain).line depth

namespace SumChange

def sexpr (s : SumChange) : SExpr :=
  .row (.named "with" :: .named s.tag :: SExpr.alteration "exclude" (s.removed.map Ident.sexpr) ++
    SExpr.alteration "include" (s.added.map Tuple.sexprAsVariant))

theorem writes (s : SumChange) : Writes s.written [s.sexpr] := by
  have exclude := (Ident.arguments_all s.removed).alteration 3 "exclude" (by decide)
  have include' := (Tuple.arguments_variants 4 s.added).alteration 3 "include" (by decide)
  have changes := exclude.append include' (ends_alteration _ _ _)
  have ends := (ends_alteration 3 "exclude" (Ident.writtenAll s.removed)).append
    (ends_alteration 3 "include" (Tuple.writtenAsVariants 4 s.added))
  have all := ((Writes.name s.tag).append changes ends).space
  have form := all.form ends_space "with" (by decide)
  unfold written sexpr
  simpa using form

end SumChange

namespace Permutation

def sexpr (p : Permutation) : SExpr :=
  .row [.named "define", .named p.tag,
    .row (.named "permute_domain" :: .named p.base ::
      (SExpr.alteration "exclude" (p.excluded.map Ident.sexpr) ++
        (SExpr.alteration "include" (p.included.map DataType.sexpr) ++
          p.sums.map SumChange.sexpr)))]

theorem writes (p : Permutation) : Writes p.written [p.sexpr] := by
  have exclude := (Ident.arguments_all p.excluded).alteration 2 "exclude" (by decide)
  have include' := (DataType.arguments_all 3 p.included).alteration 2 "include" (by decide)
  have sums := arguments_lines p.sums 2 fun s _ => s.writes
  have changes := exclude.append (include'.append sums.writes sums.ends)
    ((ends_alteration _ _ _).append sums.ends)
  have ends := (ends_alteration 2 "exclude" (Ident.writtenAll p.excluded)).append
    ((ends_alteration 2 "include" (DataType.writtenAll 3 p.included)).append sums.ends)
  have base := ((Writes.name p.base).append changes ends).space
  have body := (base.form ends_space "permute_domain" (by decide)).line 1
  have all := ((Writes.name p.tag).append body ends_lineBreak).space
  have form := all.form ends_space "define" (by decide)
  unfold written sexpr
  simpa using form

end Permutation

/-! ## Statements -/

namespace Transform

def sexpr (t : Transform) : SExpr :=
  .row [.named "transform", .named t.source, .named t.destination]

theorem writes (t : Transform) : Writes t.written [t.sexpr] := by
  have destination := (Writes.name t.destination).space
  have names := ((Writes.name t.source).append destination ends_space).space
  have form := names.form ends_space "transform" (by decide)
  unfold written sexpr
  simpa using form

end Transform

namespace Statement

def sexpr : Statement → SExpr
  | domain d => d.sexpr
  | permutation p => p.sexpr
  | transform t => t.sexpr

theorem writes (x : Statement) : Writes x.written [x.sexpr] := by
  cases x with
  | domain d => exact d.writes
  | permutation p => exact p.writes
  | transform t => exact t.writes

end Statement

theorem Universe.writes (u : Universe) : Writes u.written (u.statements.map Statement.sexpr) := by
  unfold written
  induction u.statements with
  | nil => exact .nil
  | cons x xs ih =>
    cases xs with
    | nil => simpa using x.writes
    | cons y ys =>
      have blank : isBlank '\n' := by decide
      have rest := ih.blanks (List.forall_mem_cons.2 ⟨blank, List.forall_mem_singleton.2 blank⟩)
      simpa [List.intercalate_cons_cons] using x.writes.append rest (ends_cons.2 (by decide))

/-- The text of a universe is read as what it declares, up to locations. -/
theorem Universe.ofText_written (u : Universe) (file : Option String) :
    ∃ es, SExpr.ofText file (.ofList u.written) = .ok es ∧
      es.map SExpr.unlocated = u.statements.map Statement.sexpr := by
  obtain ⟨xs, hxs, hes⟩ := u.writes
  have scans := hxs [] [] ends_nil scans_nil
  rw [List.append_nil, List.append_nil] at scans
  obtain ⟨ts, hts, hlexemes⟩ := scans (.start file)
  obtain ⟨es, hspelled, heq⟩ := hes ts.tokens hlexemes
  refine ⟨es, bind_ok.2 ⟨ts, ?_, hspelled.ofTokens⟩, heq⟩
  rw [Tokens.ofText, String.toList_ofList, hts]

end TypeDomains
