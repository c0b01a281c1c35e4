import TypeDomains.Proofs.Pipeline

/-!
# The first statements of a universe

What the first statements come to does not depend on those behind them. A statement puts its domain
behind the earlier ones and touches none of them (`Statement.prefix_of_define`), and the run over
all statements is the run over the first of them gone on with (`Universe.domains_append`). So their
error is the error of the whole, and their domains are the first of the whole
(`Universe.domains_stable`).
-/

namespace TypeDomains

namespace Statement

variable {x : Statement} {xs : List Statement} {ds ds' : List Domain}

/-- A statement puts at most one domain behind those that are there. -/
theorem prefix_of_define (h : x.define ds = .ok ds') : ds <+: ds' := by
  rcases define_ok.1 h with ⟨-, rfl⟩ | ⟨d, -, -, -, rfl⟩
  · exact List.prefix_refl ds
  · exact List.prefix_append ds [d]

theorem prefix_of_foldlM_define (h : xs.foldlM define ds = .ok ds') : ds <+: ds' := by
  refine of_foldlM (P := fun after => ds <+: after) h (List.prefix_refl ds) ?_
  intro x _ before after earlier step
  exact earlier.trans (prefix_of_define step)

end Statement

namespace Universe

variable {xs : List Statement}

/-- The other statements start from the domains of the first ones. -/
theorem domains_append (nonempty : xs ≠ []) (ys : List Statement) :
    domains ⟨xs ++ ys⟩ = domains ⟨xs⟩ >>= ys.foldlM Statement.define := by
  simp only [domains, List.isEmpty_iff, List.append_eq_nil_iff, nonempty, false_and, ↓reduceIte,
    List.foldlM_append]

/-- **What comes later changes nothing.** If the first statements fail, the universe fails with the
same error. If the universe succeeds, they do, and their domains are its first ones, one for each
of their definitions. -/
theorem domains_stable (nonempty : xs ≠ []) (ys : List Statement) :
    (∀ e, domains ⟨xs⟩ = .error e → domains ⟨xs ++ ys⟩ = .error e) ∧
    ∀ ds, domains ⟨xs ++ ys⟩ = .ok ds → ∃ earlier, domains ⟨xs⟩ = .ok earlier ∧
      earlier <+: ds ∧ earlier.length = (Statement.definitions xs).length := by
  rw [domains_append nonempty]
  constructor
  · intro e fails
    rw [fails]
    rfl
  · intro ds h
    obtain ⟨earlier, first, later⟩ := bind_ok.1 h
    exact ⟨earlier, first, Statement.prefix_of_foldlM_define later, (domains_ok.1 first).2.count⟩

/-- The base that comes too late repairs nothing, and the last domain of `chained` leaves the two
before it as they are. -/
theorem domains_stable_chained :
    domains ⟨chained.statements.drop 1 ++ chained.statements.take 1⟩ =
      .error ⟨.baseMissing "b" "a", .unknown⟩ ∧
    ∃ ds earlier, chained.domains = .ok ds ∧ domains ⟨chained.statements.take 2⟩ = .ok earlier ∧
      earlier <+: ds ∧ earlier.length = 2 := by
  constructor
  · have missing : domains ⟨chained.statements.drop 1⟩ = .error ⟨.baseMissing "b" "a", .unknown⟩ :=
      rfl
    exact (domains_stable (by simp [chained]) (chained.statements.take 1)).1 _ missing
  · have succeeds : ∃ ds, chained.domains = .ok ds := ⟨_, rfl⟩
    obtain ⟨ds, succeeds⟩ := succeeds
    have nonempty : chained.statements.take 2 ≠ [] := by simp [chained]
    obtain ⟨earlier, first, front, count⟩ :=
      (domains_stable nonempty (chained.statements.drop 2)).2 ds succeeds
    exact ⟨ds, earlier, succeeds, first, front, count⟩

end Universe

end TypeDomains
