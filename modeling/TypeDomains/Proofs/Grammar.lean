import TypeDomains.SExpr.Reader
import TypeDomains.Proofs.Outcome

/-!
# The grammar of values

Which rows of tokens spell which values (`Spelled`), and that the reader reads them so
(`Spelled.ofTokens`).
-/

namespace TypeDomains

namespace Lexeme

/-- The name that an annotation of this lexeme has. -/
def name? : Lexeme → Option String
  | symbol name => some name
  | quoted name => some name
  | _ => none

def atom? : Lexeme → Option Atom
  | symbol name => some (.symbol name)
  | quoted name => some (.symbol name)
  | operator name => some (.symbol name)
  | integer value => some (.integer value)
  | string text => some (.string text)
  | _ => none

end Lexeme

namespace SExpr

/-- The value under one more annotation, which stands at `l`. -/
def annotated (name : String) (l : Location) : SExpr → SExpr
  | atom a names _ => atom a (name :: names) l
  | list es names _ => list es (name :: names) l

@[simp]
theorem annotations_annotated (name : String) (l : Location) (e : SExpr) :
    (e.annotated name l).annotations = name :: e.annotations := by
  cases e <;> rfl

/-- The value under the annotations that wait for it. -/
def under (p : Pending) : SExpr → SExpr
  | atom a names l => atom a (p.names.reverse ++ names) (p.location.getD l)
  | list es names l => list es (p.names.reverse ++ names) (p.location.getD l)

theorem under_none (e : SExpr) : e.under .none = e := by
  cases e <;> rfl

theorem under_add (p : Pending) (name : String) (l : Location) (e : SExpr) :
    e.under (p.add name l) = (e.annotated name l).under p := by
  cases e <;> cases hp : p.location <;> simp [under, annotated, Pending.add, hp]

/-- The tokens spell the values. -/
inductive Spelled : List Token → List SExpr → Prop where
  | nil : Spelled [] []
  | atom {x a l ts es} : x.atom? = some a → Spelled ts es →
    Spelled (⟨x, l⟩ :: ts) (.atom a [] l :: es)
  | list {l l' ts us es fs} : Spelled ts es → Spelled us fs →
    Spelled (⟨.opening, l⟩ :: ts ++ ⟨.closing, l'⟩ :: us) (.list es [] l :: fs)
  | annotated {x name l l' ts e es} : x.name? = some name → Spelled ts (e :: es) →
    Spelled (⟨x, l⟩ :: ⟨.colons, l'⟩ :: ts) (e.annotated name l :: es)

end SExpr

namespace Reading

variable {r : Reading} {stop : Location} {x : Lexeme} {l : Location} {ts : List Token}

/-- Values behind those that were read; what waits goes to the first of them. -/
def push (r : Reading) : List SExpr → Reading
  | [] => r
  | e :: es => ⟨es.reverse ++ e.under r.pending :: r.values, r.opened, .none⟩

theorem push_atom (r : Reading) (a : Atom) (l : Location) (es : List SExpr) :
    (r.atom a l).push es = r.push (.atom a [] l :: es) := by
  cases es with
  | nil => simp [push, Reading.atom, SExpr.under]
  | cons e es =>
    simp only [push, Reading.atom, SExpr.under_none]
    simp [SExpr.under]

theorem push_annotate (r : Reading) (name : String) (l : Location) (e : SExpr) (es : List SExpr) :
    (r.annotate name l).push (e :: es) = r.push (e.annotated name l :: es) := by
  simp only [push, Reading.annotate, SExpr.under_add]

theorem push_cons (r : Reading) (e : SExpr) (es : List SExpr) :
    (r.push [e]).push es = r.push (e :: es) := by
  cases es with
  | nil => rfl
  | cons f es => simp [push, SExpr.under_none]

theorem closeList_push (r : Reading) (l m : Location) (es : List SExpr) :
    ((r.openList l).push es).closeList m = .ok (r.push [.list es [] l]) := by
  cases es with
  | nil => simp [push, Reading.openList, Reading.closeList, SExpr.under, Pending.none]
  | cons e es =>
    simp only [push, Reading.openList, Reading.closeList, SExpr.under_none]
    simp [SExpr.under, Pending.none]

/-- No annotation is taken from these tokens. -/
def NoColons (ts : List Token) : Prop := ∀ t ∈ ts.head?, t.lexeme ≠ .colons

theorem run_atom {a : Atom} (hx : x.atom? = some a) (hts : NoColons ts) :
    r.run stop (⟨x, l⟩ :: ts) = (r.atom a l).run stop ts := by
  have apart : ∀ m us, ts = ⟨.colons, m⟩ :: us → False := by
    rintro m us rfl
    exact hts _ rfl rfl
  cases x <;> simp only [Lexeme.atom?, Option.some.injEq, reduceCtorEq] at hx
  all_goals
    subst hx
    rw [run]
    try exact apart

theorem run_annotation {name : String} {m : Location} (hx : x.name? = some name) :
    r.run stop (⟨x, l⟩ :: ⟨.colons, m⟩ :: ts) = (r.annotate name l).run stop ts := by
  cases x <;> simp only [Lexeme.name?, Option.some.injEq, reduceCtorEq] at hx
  all_goals
    subst hx
    rw [run]

theorem noColons_append {us : List Token} (hts : ts ≠ [] → NoColons ts) (hus : NoColons us) :
    NoColons (ts ++ us) := by
  cases ts with
  | nil => exact hus
  | cons t ts => exact hts (by simp)

theorem noColons_of_spelled {es : List SExpr} (h : SExpr.Spelled ts es) : NoColons ts := by
  cases h with
  | nil => simp [NoColons]
  | @atom x _ _ _ _ hx _ => cases x <;> simp_all [NoColons, Lexeme.atom?]
  | list _ _ => simp [NoColons]
  | @annotated x _ _ _ _ _ _ hx _ => cases x <;> simp_all [NoColons, Lexeme.name?]

/-- The reader puts what the tokens spell behind what it has read. -/
theorem run_spelled {es : List SExpr} (h : SExpr.Spelled ts es) (r : Reading) (stop : Location)
    {us : List Token} (hus : NoColons us) :
    r.run stop (ts ++ us) = (r.push es).run stop us := by
  induction h generalizing r us with
  | nil => rfl
  | @atom x a l ts es hx hes ih =>
    rw [List.cons_append, run_atom hx (noColons_append (fun _ => noColons_of_spelled hes) hus),
      ih _ hus, push_atom]
  | @list l l' ts vs es fs hes hfs ihes ihfs =>
    have closing : NoColons (⟨.closing, l'⟩ :: (vs ++ us)) := by simp [NoColons]
    rw [List.append_assoc, List.cons_append, List.cons_append, run, ihes _ closing, run,
      closeList_push]
    simp only
    rw [ihfs _ hus, push_cons]
  | @annotated x name l l' ts e es hx _ ih =>
    rw [List.cons_append, List.cons_append, run_annotation hx, ih _ hus, push_annotate]

end Reading

namespace SExpr

theorem Spelled.ofTokens {ts : Tokens} {es : List SExpr} (h : Spelled ts.tokens es) :
    SExpr.ofTokens ts = .ok es := by
  have closed : Reading.NoColons [] := by simp [Reading.NoColons]
  have run := Reading.run_spelled h .start ts.stop closed
  rw [List.append_nil] at run
  rw [SExpr.ofTokens, run]
  cases es with
  | nil => rfl
  | cons e es =>
    simp [Reading.run, Reading.finish, Reading.push, Reading.start, Pending.none,
      show e.under ⟨[], .none⟩ = e from under_none e]

theorem Spelled.append {ts us : List Token} {es fs : List SExpr} (h : Spelled ts es)
    (h' : Spelled us fs) : Spelled (ts ++ us) (es ++ fs) := by
  induction h with
  | nil => exact h'
  | atom hx _ ih => exact .atom hx ih
  | list hes _ _ ih =>
    rw [List.append_assoc]
    exact .list hes ih
  | annotated hx _ ih => exact .annotated hx ih

end SExpr

end TypeDomains
