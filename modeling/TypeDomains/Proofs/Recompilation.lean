import TypeDomains.Proofs.Indifference
import TypeDomains.Proofs.Pipeline
import TypeDomains.Proofs.RoundTrip
import TypeDomains.Report

/-!
# Compiling what was written

A universe compiles as well from what is written of it as from the files it was spliced from, or
fails for the same cause; and a compilation's domains, printed with every permutation carried out,
compile to themselves (`Compilation.ofFile_written`). Both come down to one fact: where things
stand does not matter to what they compile to (`Compilation.sameOutcome_of_same`).
-/

namespace TypeDomains

namespace Compilation

/-- The two compilations differ at most in locations. -/
structure Same (c d : Compilation) : Prop where
  source : c.source.same d.source
  domains : c.domains.isEqv d.domains Domain.same
  differences : c.differences.isEqv d.differences Domain.same

/-- Both compile to the same, or the rules of domains refuse both for the same cause. -/
inductive SameOutcome : Except CompileError Compilation → Except CompileError Compilation → Prop
  | ok {c d : Compilation} (same : c.Same d) : SameOutcome (.ok c) (.ok d)
  | refused (cause : DomainFault) (l m : Location) :
      SameOutcome (.error (.domain ⟨cause, l⟩)) (.error (.domain ⟨cause, m⟩))

variable {s : Sources} {u v : Universe} {c d : Compilation} {withTransforms : Bool}

/-! ## Locations do not matter -/

theorem same_of_relabel_nowhere (c d : Compilation)
    (h : c.relabel .nowhere = d.relabel .nowhere) : c.Same d := by
  injection h with source domains differences
  constructor
  case source => exact (Universe.same_iff_relabel _ _).2 source
  case domains => exact (Domain.isEqv_same_iff _ _).2 domains
  case differences => exact (Domain.isEqv_same_iff _ _).2 differences

theorem ofUniverse_alike (withTransforms : Bool) (h : u.same v) :
    Alike Same (ofUniverse withTransforms u) (ofUniverse withTransforms v) := by
  refine alike_of_outcome same_of_relabel_nowhere ?_
  rw [← ofUniverse_relabel, ← ofUniverse_relabel, (Universe.same_iff_relabel u v).1 h]

theorem sameOutcome_of_same (h : u.same v) :
    SameOutcome ((ofUniverse withTransforms u).mapError .domain)
      ((ofUniverse withTransforms v).mapError .domain) := by
  have alike := ofUniverse_alike withTransforms h
  generalize ofUniverse withTransforms u = x at alike ⊢
  generalize ofUniverse withTransforms v = y at alike ⊢
  cases alike with
  | ok same => exact .ok same
  | refused cause l m => exact .refused cause l m

/-! ## What was compiled -/

theorem ofExpansion_of_toUniverse {x : Expansion} (h : x.toUniverse = .ok u) :
    ofExpansion withTransforms x = (ofUniverse withTransforms u).mapError .domain := by
  unfold ofExpansion
  rw [h]
  rfl

theorem ofUniverse_ok : ofUniverse withTransforms u = .ok c ↔
    ∃ ds, u.domains = .ok ds ∧ ∃ differences,
      (if withTransforms then u.differences ds else .ok []) = .ok differences ∧
        ⟨u, ds, differences⟩ = c := by
  cases withTransforms with
  | true => simp only [ofUniverse, bind_ok, pure_ok, ↓reduceIte]
  | false => simp only [ofUniverse, bind_ok, pure_ok, Bool.false_eq_true, ↓reduceIte]

/-- Transforms alone are no compilation if they are looked at, for there is nothing they could
lead from. -/
theorem domains_ne_nil (h : ofUniverse true u = .ok c) : c.domains ≠ [] := by
  obtain ⟨ds, hds, differences, hdifferences, rfl⟩ := ofUniverse_ok.1 h
  obtain ⟨nonempty, built⟩ := Universe.domains_ok.1 hds
  rintro rfl
  have transforms : Statement.definitions u.statements = [] :=
    List.eq_nil_of_length_eq_zero built.count.symm
  cases hu : u.statements with
  | nil => exact nonempty hu
  | cons x xs =>
    rw [hu] at transforms
    cases x with
    | domain d => simp [Statement.definitions, Statement.isDefinition] at transforms
    | permutation p => simp [Statement.definitions, Statement.isDefinition] at transforms
    | transform t =>
      simp only [↓reduceIte, Universe.differences, Universe.transforms, hu] at hdifferences
      cases mapM_ok.1 hdifferences with
      | cons first _ =>
        obtain ⟨source, found, -⟩ := bind_ok.1 first
        simp [Transform.side, Domain.find?] at found

/-- Domains that a universe comes to are what they come to themselves. -/
theorem domains_domainsOnly (h : c.source.domains = .ok c.domains) (nonempty : c.domains ≠ []) :
    c.domainsOnly.domains = .ok c.domains := by
  have built := (Universe.domains_ok.1 h).2
  have definitions : Statement.definitions (c.domains.map .domain) = c.domains.map .domain := by
    refine List.filter_eq_self.2 ?_
    intro x hx
    obtain ⟨d, -, rfl⟩ := List.mem_map.1 hx
    rfl
  refine Universe.domains_ok.2 ⟨by simpa [domainsOnly] using nonempty, ?_⟩
  constructor
  case count => simp [domainsOnly, definitions]
  case tags => exact built.tags
  case checked => exact built.checked
  case defined =>
    intro k x d hx hd
    have statement : x = .domain d := by
      rw [domainsOnly, definitions, List.getElem?_map, hd] at hx
      exact (Option.some.inj hx).symm
    rw [statement]
    exact rfl

theorem ofUniverse_domainsOnly (again : Bool) (h : c.source.domains = .ok c.domains)
    (nonempty : c.domains ≠ []) :
    ofUniverse again c.domainsOnly = .ok ⟨c.domainsOnly, c.domains, []⟩ := by
  have transforms : c.domainsOnly.transforms = [] := by
    simp [Universe.transforms, domainsOnly]
  have differences : c.domainsOnly.differences c.domains = .ok [] := by
    rw [Universe.differences, transforms]
    rfl
  refine ofUniverse_ok.2 ⟨c.domains, domains_domainsOnly h nonempty, [], ?_, rfl⟩
  cases again with
  | true => exact differences
  | false => rfl

/-! ## What can be written -/

theorem variantwise_expressible : Variantwise DataType.Expressible Tuple.ExpressibleAsVariant where
  variants _ h := h.variants
  exchange _ _ h hvs := ⟨h.unflagged, hvs⟩

/-- Permutations make nothing that could not have been declared. -/
theorem expressible_domainsOnly (h : c.source.domains = .ok c.domains)
    (expressible : c.source.Expressible) : c.domainsOnly.Expressible := by
  have declared (x : Statement) (hx : x ∈ c.source.statements) :
      x.Declares DataType.Expressible Tuple.ExpressibleAsVariant := by
    have hx := expressible x hx
    cases x with
    | domain d => exact hx
    | permutation p => exact ⟨hx.included, hx.sums⟩
    | transform t => trivial
  have domains := Universe.forall_of_domains variantwise_expressible h declared
  intro x hx
  obtain ⟨d, hd, rfl⟩ := List.mem_map.1 hx
  exact domains d hd

theorem ofString_written (t : Sources) (withTransforms : Bool) (expressible : u.Expressible) :
    SameOutcome ((ofUniverse withTransforms u).mapError .domain)
      (ofString t withTransforms (.ofList u.written)) := by
  obtain ⟨v, hv, same⟩ := t.ofString_written expressible
  have same : u.same v := (Universe.same_iff u v).2 ((Universe.same_iff v u).1 same).symm
  rw [ofString, ofExpansion_of_toUniverse hv]
  exact sameOutcome_of_same same

theorem ofString_printed (t : Sources) (again : Bool) (expressible : c.source.Expressible)
    (h : c.source.domains = .ok c.domains) (nonempty : c.domains ≠ []) :
    ∃ d, ofString t again c.printed = .ok d ∧ c.domains.isEqv d.domains Domain.same ∧
      c.domainsOnly.same d.source := by
  have outcome := ofString_written t again (expressible_domainsOnly h expressible)
  rw [ofUniverse_domainsOnly again h nonempty] at outcome
  cases hd : ofString t again c.printed with
  | error e =>
    rw [← printed, hd] at outcome
    nomatch outcome
  | ok d =>
    rw [← printed, hd] at outcome
    cases outcome with
    | ok same => exact ⟨d, rfl, same.domains, same.source⟩

/-- **A compilation and what is written of it.** Whatever files a universe was spliced from, its
text alone compiles to the same, or is refused for the same cause. If there are domains, as there
always are once transforms are looked at, then printing them and compiling the print leads to the
same domains, now without a permutation. -/
theorem ofFile_written (s t : Sources) (withTransforms : Bool) (main : Path) (u : Universe)
    (h : (s.ofFile main).toUniverse = .ok u) :
    SameOutcome (ofFile s withTransforms main) (ofString t withTransforms (.ofList u.written)) ∧
    ∀ c, ofFile s withTransforms main = .ok c →
      (withTransforms = true → c.domains ≠ []) ∧
      (c.domains ≠ [] → ∀ again, ∃ d, ofString t again c.printed = .ok d ∧
        c.domains.isEqv d.domains Domain.same ∧ c.domainsOnly.same d.source) := by
  have expressible : u.Expressible := Sources.expressible_of_ofFile h
  have compiled : ofFile s withTransforms main = (ofUniverse withTransforms u).mapError .domain :=
    ofExpansion_of_toUniverse h
  rw [compiled]
  refine ⟨ofString_written t withTransforms expressible, ?_⟩
  intro c hc
  have hc : ofUniverse withTransforms u = .ok c := mapError_ok.1 hc
  constructor
  · rintro rfl
    exact domains_ne_nil hc
  · intro nonempty again
    obtain ⟨ds, hds, _, -, rfl⟩ := ofUniverse_ok.1 hc
    exact ofString_printed t again expressible hds nonempty

/-- A domain in a file of its own, another that permutes it, and a transform between them. -/
def spliced : Sources :=
  ⟨⟨[(⟨["a"]⟩, .file (.text
      "(include_file \"b\")(define y (permute_domain x (exclude p)))(transform x y)")),
    (⟨["b"]⟩, .file (.text "(define x (domain (product p i::int) (product q)))"))], ⟨"/"⟩⟩, []⟩

theorem ofFile_spliced : ∃ c, ofFile spliced true ⟨"a"⟩ = .ok c ∧
    c.domains.map Domain.tag = ["x", "y"] := by
  rw [ofFile, Evaluation.ofFile_eq]
  decide +kernel

theorem ofFile_written_spliced : ∃ u c d, (spliced.ofFile ⟨"a"⟩).toUniverse = .ok u ∧
    ofFile spliced true ⟨"a"⟩ = .ok c ∧
    SameOutcome (.ok c) (ofString ⟨⟨[], ⟨"/"⟩⟩, []⟩ true (.ofList u.written)) ∧
    ofString ⟨⟨[], ⟨"/"⟩⟩, []⟩ true c.printed = .ok d ∧ c.domains.isEqv d.domains Domain.same := by
  obtain ⟨c, compiled, -⟩ := ofFile_spliced
  obtain ⟨u, read, -⟩ := bind_ok.1 compiled
  have hu : (spliced.ofFile ⟨"a"⟩).toUniverse = .ok u := mapError_ok.1 read
  obtain ⟨outcome, domains⟩ := ofFile_written spliced ⟨⟨[], ⟨"/"⟩⟩, []⟩ true ⟨"a"⟩ u hu
  obtain ⟨some_domain, printed⟩ := domains c compiled
  obtain ⟨d, hd, same, -⟩ := printed (some_domain rfl) true
  rw [compiled] at outcome
  exact ⟨u, c, d, hu, compiled, outcome, hd, same⟩

end Compilation

end TypeDomains
