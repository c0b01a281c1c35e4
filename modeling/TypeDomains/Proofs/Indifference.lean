import Mathlib.Logic.Equiv.Basic
import TypeDomains.Proofs.Equivariance

/-!
# Names and places decide nothing

Models that differ at most in locations come to the same, or are refused for the same cause
(`outcomes_alike_of_same`). Models that differ in names only come to what differs in those names
only, whatever the names are (`Universe.outcomes_renamed`). Both are about two runs, and both follow
from one fact about relabelled models.
-/

namespace TypeDomains

/-! ## Places -/

/-- Both succeed, with results that `same` holds of, or both are refused for the same cause. -/
inductive Alike {α : Type} (same : α → α → Prop) :
    Except DomainError α → Except DomainError α → Prop
  | ok {a b : α} (results : same a b) : Alike same (.ok a) (.ok b)
  | refused (cause : DomainFault) (l m : Location) :
      Alike same (.error ⟨cause, l⟩) (.error ⟨cause, m⟩)

theorem Alike.results {α : Type} {same : α → α → Prop} {a b : α}
    (h : Alike same (.ok a) (.ok b)) : same a b := by
  cases h with
  | ok results => exact results

/-- Outcomes that are one without their locations. -/
theorem alike_of_outcome {α β : Type} {f : α → β} {same : α → α → Prop}
    (hf : ∀ a b, f a = f b → same a b) {x y : Except DomainError α}
    (h : Relabelling.nowhere.outcome f x = Relabelling.nowhere.outcome f y) : Alike same x y := by
  cases x with
  | ok a =>
    cases y with
    | ok b => exact .ok (hf a b (Except.ok.inj h))
    | error f => cases h
  | error e =>
    cases y with
    | ok b => cases h
    | error f =>
      obtain ⟨cause, l⟩ := e
      obtain ⟨cause', m⟩ := f
      have causes : cause.rename id = cause'.rename id :=
        congrArg Located.cause (Except.error.inj h)
      rw [DomainFault.rename_id, DomainFault.rename_id] at causes
      rw [causes]
      exact .refused cause' l m

theorem Domain.same_iff_relabel (d e : Domain) :
    d.same e ↔ d.relabel .nowhere = e.relabel .nowhere := by
  rw [relabel_nowhere]
  exact same_iff d e

theorem Domain.isEqv_same_iff (ds es : List Domain) :
    ds.isEqv es Domain.same ↔ ds.map (relabel .nowhere) = es.map (relabel .nowhere) :=
  isEqv_iff_map_eq same_iff_relabel ds es

theorem Permutation.same_iff_relabel (p q : Permutation) :
    p.same q ↔ p.relabel .nowhere = q.relabel .nowhere := by
  rw [relabel_nowhere]
  exact same_iff p q

theorem Universe.same_iff_relabel (u v : Universe) :
    u.same v ↔ u.relabel .nowhere = v.relabel .nowhere := by
  rw [relabel_nowhere]
  exact same_iff u v

variable {u v : Universe} {p q : Permutation} {ds es : List Domain} {a b c d : Domain}

theorem Universe.domains_alike (h : u.same v) :
    Alike (fun ds es => ds.isEqv es Domain.same) u.domains v.domains := by
  refine alike_of_outcome (fun ds es => (Domain.isEqv_same_iff ds es).2) ?_
  rw [← domains_relabel, ← domains_relabel, (same_iff_relabel u v).1 h]

theorem Universe.differences_alike (h : u.same v) (hds : ds.isEqv es Domain.same) :
    Alike (fun ds es => ds.isEqv es Domain.same) (u.differences ds) (v.differences es) := by
  refine alike_of_outcome (fun ds es => (Domain.isEqv_same_iff ds es).2) ?_
  rw [← differences_relabel, ← differences_relabel, (same_iff_relabel u v).1 h,
    (Domain.isEqv_same_iff ds es).1 hds]

theorem Permutation.toDomain_alike (h : p.same q) (hds : ds.isEqv es Domain.same) :
    Alike (fun d e => d.same e) (p.toDomain ds) (q.toDomain es) := by
  refine alike_of_outcome (fun d e => (Domain.same_iff_relabel d e).2) ?_
  rw [← toDomain_relabel, ← toDomain_relabel, (same_iff_relabel p q).1 h,
    (Domain.isEqv_same_iff ds es).1 hds]

theorem Domain.differenceFrom_same (hab : a.same b) (hcd : c.same d) :
    (a.differenceFrom c).same (b.differenceFrom d) := by
  rw [same_iff_relabel, ← differenceFrom_relabel, ← differenceFrom_relabel,
    (same_iff_relabel a b).1 hab, (same_iff_relabel c d).1 hcd]

/-- **Places decide nothing.** Of two universes that differ at most in locations, both come to the
same domains and the same differences, or both are refused for the same cause with the same names in
it. The same holds of a permutation behind some domains and of the difference of two domains. -/
theorem outcomes_alike_of_same :
    (∀ u v : Universe, u.same v →
      Alike (fun ds es => ds.isEqv es Domain.same) u.domains v.domains ∧
      ∀ ds es : List Domain, ds.isEqv es Domain.same →
        Alike (fun xs ys => xs.isEqv ys Domain.same) (u.differences ds) (v.differences es)) ∧
    (∀ (p q : Permutation) (ds es : List Domain), p.same q → ds.isEqv es Domain.same →
      Alike (fun d e => d.same e) (p.toDomain ds) (q.toDomain es)) ∧
    ∀ a b c d : Domain, a.same b → c.same d → (a.differenceFrom c).same (b.differenceFrom d) := by
  refine ⟨?_, ?_, ?_⟩
  · intro u v h
    exact ⟨Universe.domains_alike h, fun ds es hds => Universe.differences_alike h hds⟩
  · intro p q ds es h hds
    exact Permutation.toDomain_alike h hds
  · intro a b c d hab hcd
    exact Domain.differenceFrom_same hab hcd

/-- A domain, a permutation of it whose new type refers to `reference`, and a transform between
them, all of which stand at `l`. -/
def Universe.standing (reference : String) (l : Location) : Universe :=
  ⟨[.domain ⟨"a", [.tuple ⟨"p", .product, [⟨"i", "", ⟨"int", .required, l⟩, l⟩], false, l⟩], l⟩,
    .permutation ⟨"b", "a", [], [.tuple ⟨"q", .record,
      [⟨"j", "k", ⟨reference, .optional, l⟩, l⟩], false, l⟩], [], l⟩,
    .transform ⟨"b", "a", l⟩]⟩

theorem outcomes_alike_of_same_standing :
    let l : Location := ⟨none, 1, 1⟩
    let m : Location := ⟨some "f", 2, 3⟩
    (∃ ds es xs ys, (Universe.standing "p" l).domains = .ok ds ∧
      (Universe.standing "p" m).domains = .ok es ∧ ds ≠ es ∧ ds.isEqv es Domain.same ∧
      (Universe.standing "p" l).differences ds = .ok xs ∧
      (Universe.standing "p" m).differences es = .ok ys ∧ xs ≠ ys ∧ xs.isEqv ys Domain.same) ∧
    (Universe.standing "j" l).domains = .error ⟨.notAType "j", l⟩ ∧
    (Universe.standing "j" m).domains = .error ⟨.notAType "j", m⟩ ∧
    Alike (fun ds es => ds.isEqv es Domain.same) (Universe.standing "j" l).domains
      (Universe.standing "j" m).domains := by
  intro l m
  have universes := outcomes_alike_of_same.1
  refine ⟨?_, rfl, rfl, (universes _ _ rfl).1⟩
  obtain ⟨domains, differences⟩ := universes (.standing "p" l) (.standing "p" m) rfl
  have hds : (Universe.standing "p" l).domains = .ok _ := rfl
  have hes : (Universe.standing "p" m).domains = .ok _ := rfl
  rw [hds, hes] at domains
  have differences := differences _ _ domains.results
  exact ⟨_, _, _, _, hds, hes, by decide, domains.results, rfl, rfl, by decide,
    differences.results⟩

/-! ## Names -/

/-- Other names at the same places. The tags of parts may change as well or stay. -/
def Relabelling.renaming (f part : String → String) (injective : Function.Injective f)
    (part_injective : Function.Injective part) (builtin : ∀ b : Builtin, f b.tag = b.tag) :
    Relabelling where
  name := f
  part := part
  place := id
  injective := injective
  part_injective := part_injective
  builtin := builtin
  unknown := rfl

/-- **Names decide nothing.** Under other names a universe comes to the same domains under these
names, in the same order, and it is refused at the same place for the same cause, with its names
renamed. The same holds of its differences, whatever the domains are. -/
theorem Universe.outcomes_renamed (f part : String → String) (injective : Function.Injective f)
    (part_injective : Function.Injective part) (builtin : ∀ b : Builtin, f b.tag = b.tag)
    (u : Universe) :
    let r := Relabelling.renaming f part injective part_injective builtin
    (∀ ds, u.domains = .ok ds → (u.relabel r).domains = .ok (ds.map (Domain.relabel r))) ∧
    (∀ cause l, u.domains = .error ⟨cause, l⟩ →
      (u.relabel r).domains = .error ⟨cause.rename f, l⟩) ∧
    ∀ ds : List Domain,
      (∀ xs, u.differences ds = .ok xs →
        (u.relabel r).differences (ds.map (Domain.relabel r)) = .ok (xs.map (Domain.relabel r))) ∧
      ∀ cause l, u.differences ds = .error ⟨cause, l⟩ →
        (u.relabel r).differences (ds.map (Domain.relabel r)) = .error ⟨cause.rename f, l⟩ := by
  intro r
  refine ⟨?_, ?_, fun ds => ⟨?_, ?_⟩⟩
  · intro ds h
    rw [domains_relabel, h]
    rfl
  · intro cause l h
    rw [domains_relabel, h]
    rfl
  · intro xs h
    rw [differences_relabel, h]
    rfl
  · intro cause l h
    rw [differences_relabel, h]
    rfl

/-- The domain and its type exchange their names, and parts of products get a tag. -/
theorem Universe.outcomes_renamed_swapped :
    let l : Location := ⟨none, 1, 1⟩
    ∃ (part_injective : Function.Injective ("." ++ ·))
      (builtin : ∀ b : Builtin, Equiv.swap "a" "p" b.tag = b.tag),
      let r := Relabelling.renaming (Equiv.swap "a" "p") ("." ++ ·) (Equiv.swap "a" "p").injective
        part_injective builtin
      (∃ ds xs, (standing "p" l).domains = .ok ds ∧ (standing "p" l).differences ds = .ok xs ∧
        ((standing "p" l).relabel r).domains = .ok (ds.map (Domain.relabel r)) ∧
        (ds.map (Domain.relabel r)).map Domain.tag = ["p", "b"] ∧
        ((standing "p" l).relabel r).differences (ds.map (Domain.relabel r)) =
          .ok (xs.map (Domain.relabel r))) ∧
      (standing "a" l).domains = .error ⟨.undefinedType "a", l⟩ ∧
      ((standing "a" l).relabel r).domains = .error ⟨.undefinedType "p", l⟩ := by
  intro l
  have part_injective : Function.Injective ("." ++ ·) := by
    intro a b h
    simpa using h
  have builtin : ∀ b : Builtin, Equiv.swap "a" "p" b.tag = b.tag := by
    intro b
    cases b <;> rfl
  refine ⟨part_injective, builtin, ?_⟩
  have renamed := outcomes_renamed (Equiv.swap "a" "p") ("." ++ ·) (Equiv.swap "a" "p").injective
    part_injective builtin
  refine ⟨?_, rfl, (renamed (standing "a" l)).2.1 _ _ rfl⟩
  obtain ⟨domains, -, differences⟩ := renamed (standing "p" l)
  refine ⟨_, _, rfl, rfl, ?_, rfl, ?_⟩
  · exact domains _ rfl
  · exact (differences _).1 _ rfl

end TypeDomains
