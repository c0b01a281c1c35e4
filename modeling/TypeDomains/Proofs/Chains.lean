import TypeDomains.Proofs.Exactness

/-!
# A permutation in two parts

A permutation takes its steps one after the other, and no step knows of those before it but by the
types that it is given. So the steps can be cut anywhere, and the permutation made in two parts
(`Permutation.toDomain_cut`).
-/

namespace TypeDomains

/-! ## Steps of a change -/

namespace SumChange

/-- The change to the same sum, at the same place, that removes and adds these variants. -/
def instead (c : SumChange) (removed : List Ident) (added : List Tuple) : SumChange :=
  { c with removed := removed, added := added }

/-- The changes to one variant each, removals first. -/
def pieces (c : SumChange) (removed : List Ident) (added : List Tuple) : List SumChange :=
  removed.map (fun i => c.instead [i] []) ++ added.map fun v => c.instead [] [v]

/-- The steps of a change. One that does nothing still looks for its sum, and is a step itself. -/
def steps (c : SumChange) : List SumChange :=
  if c.removed.isEmpty && c.added.isEmpty then [c] else c.pieces c.removed c.added

variable {is js : List Ident} {vs ws : List Tuple}

/-- Removals and then additions can be cut anywhere. A part that adds may not stand in front of one
that removes, as what was added could be removed again. -/
theorem change_instead_append (c : SumChange) (ordered : vs = [] ∨ js = []) (s : Sum) :
    (c.instead (is ++ js) (vs ++ ws)).change s =
      (c.instead is vs).change s >>= (c.instead js ws).change := by
  unfold change instead
  simp only [List.foldlM_append, bind_assoc, pure_bind]
  congr 1
  funext kept
  rcases ordered with rfl | rfl
  · simp only [List.nil_append, List.append_nil]
  · simp only [List.foldlM_nil, pure_bind, List.append_assoc]

/-- Two changes to the same sum find the same one. -/
theorem changeFirst_instead_append (c : SumChange) (ordered : vs = [] ∨ js = [])
    (types : List DataType) : (c.instead (is ++ js) (vs ++ ws)).changeFirst types =
      (c.instead is vs).changeFirst types >>= (c.instead js ws).changeFirst := by
  induction types with
  | nil => rfl
  | cons t ts ih =>
    by_cases first : t.tag = c.tag
    · cases t with
      | builtin b | tuple u =>
        have refused (is : List Ident) (vs : List Tuple) := changeFirst_cons_of_not_sum
          (c := c.instead is vs) first (by simp) ts
        rw [refused, refused]
        rfl
      | sum s =>
        have found (is : List Ident) (vs : List Tuple) (ts : List DataType) :
            (c.instead is vs).changeFirst (.sum s :: ts) =
              ((c.instead is vs).change s).map (DataType.sum · :: ts) :=
          changeFirst_cons_sum (c := c.instead is vs) first ts
        rw [found, found, change_instead_append c ordered]
        cases changed : (c.instead is vs).change s with
        | error e => rfl
        | ok s' =>
          have same : s'.tag = c.tag := by
            obtain ⟨_, -, rfl⟩ := change_ok.1 changed
            exact first
          exact (changeFirst_cons_sum (c := c.instead js ws) same ts).symm
    · have passed (is : List Ident) (vs : List Tuple) (ts : List DataType) :
          (c.instead is vs).changeFirst (t :: ts) =
            ((c.instead is vs).changeFirst ts).map (t :: ·) :=
        changeFirst_cons_of_ne (c := c.instead is vs) first ts
      rw [passed, passed, ih]
      cases (c.instead is vs).changeFirst ts with
      | error e => rfl
      | ok ts' => exact (passed js ws ts').symm

theorem apply_instead_append (c : SumChange) (ordered : vs = [] ∨ js = [])
    (types : List DataType) : (c.instead (is ++ js) (vs ++ ws)).apply types =
      (c.instead is vs).apply types >>= (c.instead js ws).apply := by
  by_cases builtin : Builtin.isTag c.tag
  · have refused (is : List Ident) (vs : List Tuple) (ts : List DataType) :
        (c.instead is vs).apply ts = .error ⟨.notASum c.tag, c.location⟩ := if_pos builtin
    rw [refused, refused]
    rfl
  · have own (is : List Ident) (vs : List Tuple) (ts : List DataType) :
        (c.instead is vs).apply ts = (c.instead is vs).changeFirst ts := if_neg builtin
    simp only [own]
    exact changeFirst_instead_append c ordered types

/-- Behind a change, changes to one variant each make it a larger one. -/
theorem foldlM_pieces (c : SumChange) (is : List Ident) (vs : List Tuple)
    (ordered : vs = [] ∨ js = []) (types : List DataType) :
    ((c.instead is vs).apply types >>= (c.pieces js ws).foldlM apply) =
      (c.instead (is ++ js) (vs ++ ws)).apply types := by
  -- One more removal joins the change in front, and behind the last one so does each addition.
  induction js generalizing is vs with
  | cons j js ih =>
    have none : vs = [] := by simpa using ordered
    have pieces_eq : c.pieces (j :: js) ws = c.instead [j] [] :: c.pieces js ws := rfl
    simp only [pieces_eq, List.foldlM_cons, ← bind_assoc]
    rw [← apply_instead_append c (.inl none), ih _ _ (.inl (by simpa using none))]
    simp
  | nil =>
    induction ws generalizing vs with
    | nil => simp [pieces]
    | cons w ws ih =>
      have pieces_eq : c.pieces [] (w :: ws) = c.instead [] [w] :: c.pieces [] ws := rfl
      simp only [pieces_eq, List.foldlM_cons, ← bind_assoc]
      rw [← apply_instead_append c (.inr rfl), List.append_nil, ih _ (.inr rfl)]
      simp

/-- A change is all of its steps, one after the other. -/
theorem foldlM_steps (c : SumChange) (types : List DataType) :
    c.steps.foldlM apply types = c.apply types := by
  obtain ⟨sum, removed, added, location⟩ := c
  cases removed with
  | cons i is => exact foldlM_pieces _ [i] [] (.inl rfl) types
  | nil =>
    cases added with
    | cons v vs => exact foldlM_pieces _ [] [v] (.inr rfl) types
    | nil => exact bind_pure _

/-! ## A change cut in two -/

variable {n : Nat}

/-- The first `n` steps of a change that has more. -/
def upTo (c : SumChange) (n : Nat) : SumChange :=
  c.instead (c.removed.take n) (c.added.take (n - c.removed.length))

/-- The steps of a change behind the first `n`. -/
def onward (c : SumChange) (n : Nat) : SumChange :=
  c.instead (c.removed.drop n) (c.added.drop (n - c.removed.length))

/-- The changes that the first `n` steps make up. One that is cut gives its front. -/
def allUpTo : List SumChange → Nat → List SumChange
  | [], _ => []
  | c :: cs, n =>
    -- Nothing of `c`, where its empty front would still look for the sum.
    if n = 0 then [] else if n < c.steps.length then [c.upTo n]
    else c :: allUpTo cs (n - c.steps.length)

/-- The changes that are made up of the steps behind the first `n`. One that is cut gives its
rest. -/
def allOnward : List SumChange → Nat → List SumChange
  | [], _ => []
  | c :: cs, n => if n < c.steps.length then c.onward n :: cs else allOnward cs (n - c.steps.length)

theorem pieces_eq_nil {c : SumChange} : c.pieces is vs = [] ↔ is = [] ∧ vs = [] := by
  simp [pieces]

theorem steps_instead {c : SumChange} (h : c.pieces is vs ≠ []) :
    (c.instead is vs).steps = c.pieces is vs := by
  have some : ¬((c.instead is vs).removed.isEmpty && (c.instead is vs).added.isEmpty) := by
    simpa [instead, pieces_eq_nil] using h
  exact if_neg some

theorem steps_of_lt {c : SumChange} (several : 1 < c.steps.length) :
    c.steps = c.pieces c.removed c.added := by
  unfold steps at several ⊢
  split at several
  · simp at several
  · rename_i some
    rw [if_neg some]

theorem take_pieces (c : SumChange) (is : List Ident) (vs : List Tuple) (n : Nat) :
    (c.pieces is vs).take n = c.pieces (is.take n) (vs.take (n - is.length)) := by
  simp [pieces, List.take_append, List.map_take]

theorem drop_pieces (c : SumChange) (is : List Ident) (vs : List Tuple) (n : Nat) :
    (c.pieces is vs).drop n = c.pieces (is.drop n) (vs.drop (n - is.length)) := by
  simp [pieces, List.drop_append, List.map_drop]

theorem steps_upTo {c : SumChange} (pos : 0 < n) (more : n < c.steps.length) :
    (c.upTo n).steps = c.steps.take n := by
  have several : 1 < c.steps.length := by omega
  rw [steps_of_lt several] at more ⊢
  rw [take_pieces]
  refine steps_instead ?_
  rw [← take_pieces, ← List.length_pos_iff, List.length_take]
  omega

theorem steps_onward {c : SumChange} (more : n < c.steps.length) :
    (c.onward n).steps = c.steps.drop n := by
  rcases Nat.eq_zero_or_pos n with rfl | pos
  · simp [onward, instead]
  · have several : 1 < c.steps.length := by omega
    rw [steps_of_lt several] at more ⊢
    rw [drop_pieces]
    refine steps_instead ?_
    rw [← drop_pieces, ← List.length_pos_iff, List.length_drop]
    omega

theorem steps_allUpTo (cs : List SumChange) (n : Nat) :
    (allUpTo cs n).flatMap steps = (cs.flatMap steps).take n := by
  induction cs generalizing n with
  | nil => simp [allUpTo]
  | cons c cs ih =>
    rw [allUpTo, List.flatMap_cons, List.take_append]
    split
    · subst n
      simp
    · split
      · rename_i pos more
        have none : n - c.steps.length = 0 := by omega
        simp [steps_upTo (Nat.pos_of_ne_zero pos) more, none]
      · rename_i whole
        rw [List.flatMap_cons, ih, List.take_of_length_le (Nat.not_lt.1 whole)]

theorem steps_allOnward (cs : List SumChange) (n : Nat) :
    (allOnward cs n).flatMap steps = (cs.flatMap steps).drop n := by
  induction cs generalizing n with
  | nil => simp [allOnward]
  | cons c cs ih =>
    rw [allOnward, List.flatMap_cons, List.drop_append]
    split
    · rename_i more
      have none : n - c.steps.length = 0 := by omega
      rw [List.flatMap_cons, steps_onward more, none, List.drop_zero]
    · rename_i whole
      rw [ih, List.drop_of_length_le (Nat.not_lt.1 whole), List.nil_append]

end SumChange

/-! ## Steps of a permutation -/

/-- A step of a permutation. -/
inductive Alteration where
  | exclusion (i : Ident)
  | change (c : SumChange)
  | inclusion (t : DataType)
  deriving DecidableEq, Repr

def Alteration.apply (types : List DataType) : Alteration → Except DomainError (List DataType)
  | exclusion i => excludeType types i
  | change c => c.apply types
  | inclusion t => .ok (types ++ [t])

namespace Permutation

/-- The steps of a permutation, in the order in which they are taken. -/
def steps (p : Permutation) : List Alteration :=
  p.excluded.map .exclusion ++ (p.sums.flatMap SumChange.steps).map .change ++
    p.included.map .inclusion

theorem foldlM_inclusion (types news : List DataType) :
    (news.map .inclusion).foldlM Alteration.apply types = .ok (types ++ news) := by
  induction news generalizing types with
  | nil => simp [pure, Except.pure]
  | cons t news ih =>
    change (news.map .inclusion).foldlM Alteration.apply (types ++ [t]) = _
    rw [ih, List.append_assoc, List.singleton_append]

theorem foldlM_change (cs : List SumChange) (types : List DataType) :
    ((cs.flatMap SumChange.steps).map .change).foldlM Alteration.apply types =
      cs.foldlM SumChange.apply types := by
  induction cs generalizing types with
  | nil => rfl
  | cons c cs ih =>
    have first : (c.steps.map .change).foldlM Alteration.apply types = c.apply types := by
      rw [List.foldlM_map]
      exact c.foldlM_steps types
    simp only [List.flatMap_cons, List.map_append, List.foldlM_append, List.foldlM_cons, first, ih]

/-- The permutation makes its alterations step by step. -/
theorem foldlM_steps (p : Permutation) (types : List DataType) :
    p.steps.foldlM Alteration.apply types = p.alterTypes types := by
  have exclusion : (p.excluded.map .exclusion).foldlM Alteration.apply types =
      p.excluded.foldlM excludeType types := List.foldlM_map
  simp only [steps, List.foldlM_append, exclusion, foldlM_change, foldlM_inclusion, bind_assoc]
  rfl

/-- The part of the permutation that the first `n` steps make up. It defines `middle`. -/
def upTo (p : Permutation) (middle : String) (n : Nat) : Permutation where
  tag := middle
  base := p.base
  excluded := p.excluded.take n
  sums := SumChange.allUpTo p.sums (n - p.excluded.length)
  included := p.included.take (n - p.excluded.length - (p.sums.flatMap SumChange.steps).length)
  location := p.location

/-- The part that is made up of the steps behind the first `n`. It builds on `middle`. -/
def onward (p : Permutation) (middle : String) (n : Nat) : Permutation where
  tag := p.tag
  base := middle
  excluded := p.excluded.drop n
  sums := SumChange.allOnward p.sums (n - p.excluded.length)
  included := p.included.drop (n - p.excluded.length - (p.sums.flatMap SumChange.steps).length)
  location := p.location

theorem steps_upTo (p : Permutation) (middle : String) (n : Nat) :
    (p.upTo middle n).steps = p.steps.take n := by
  simp only [steps, upTo, SumChange.steps_allUpTo, List.take_append, List.map_take,
    List.length_append, List.length_map, Nat.sub_sub]

theorem steps_onward (p : Permutation) (middle : String) (n : Nat) :
    (p.onward middle n).steps = p.steps.drop n := by
  simp only [steps, onward, SumChange.steps_allOnward, List.drop_append, List.map_drop,
    List.length_append, List.length_map, Nat.sub_sub]

theorem alterTypes_cut (p : Permutation) (middle : String) (n : Nat) (types : List DataType) :
    p.alterTypes types =
      (p.upTo middle n).alterTypes types >>= (p.onward middle n).alterTypes := by
  calc p.alterTypes types
      = (p.steps.take n ++ p.steps.drop n).foldlM Alteration.apply types := by
        rw [List.take_append_drop, foldlM_steps]
    _ = (p.steps.take n).foldlM Alteration.apply types >>=
          (p.steps.drop n).foldlM Alteration.apply := List.foldlM_append
    _ = _ := by
        simp only [← steps_upTo p middle, ← steps_onward p middle, foldlM_steps]

/-- **A permutation in two parts.** Cut anywhere between its steps, it comes to the same: if the
first part fails, then with the same error, and if not, then as the second part does behind it. -/
theorem toDomain_cut (p : Permutation) (middle : String) (n : Nat) {ds : List Domain}
    {base : Domain} (found : Domain.find? ds p.base = some base) :
    (p.upTo middle n).steps = p.steps.take n ∧ (p.onward middle n).steps = p.steps.drop n ∧
    (∀ e, (p.upTo middle n).toDomain ds = .error e → p.toDomain ds = .error e) ∧
    ∀ d, (p.upTo middle n).toDomain ds = .ok d → ∀ es : List Domain,
      Domain.find? es middle = some d → (p.onward middle n).toDomain es = p.toDomain ds := by
  have found' : Domain.find? ds (p.upTo middle n).base = some base := found
  refine ⟨steps_upTo p middle n, steps_onward p middle n, ?_⟩
  rw [toDomain_of_find found, toDomain_of_find found', alterTypes_cut p middle n]
  cases (p.upTo middle n).alterTypes base.types with
  | error e =>
    refine ⟨fun _ fails => ?_, fun _ made => (nomatch made)⟩
    obtain rfl := Except.error.inj fails
    rfl
  | ok types =>
    refine ⟨fun _ fails => (nomatch fails), fun d made es again => ?_⟩
    obtain rfl := Except.ok.inj made
    have again : Domain.find? es (p.onward middle n).base = some _ := again
    rw [toDomain_of_find again]
    rfl

/-- Cut between the removal and the additions, the change to the sum becomes two. -/
theorem toDomain_cut_letters :
    ((reletter [⟨"a", .unknown⟩]).upTo "middle" 2).sums = [⟨"s", [⟨"a", .unknown⟩], [], .unknown⟩] ∧
    ((reletter [⟨"a", .unknown⟩]).onward "middle" 2).sums =
      [⟨"s", [], [.empty "d", .empty "e"], .unknown⟩] ∧
    ∃ d, ((reletter [⟨"a", .unknown⟩]).upTo "middle" 2).toDomain [letters] = .ok d ∧
      ((reletter [⟨"a", .unknown⟩]).onward "middle" 2).toDomain [letters, d] =
        (reletter [⟨"a", .unknown⟩]).toDomain [letters] := by
  have found : Domain.find? [letters] (reletter [⟨"a", .unknown⟩]).base = some letters := rfl
  obtain ⟨-, -, -, second⟩ := toDomain_cut (reletter [⟨"a", .unknown⟩]) "middle" 2 found
  exact ⟨by decide, by decide, _, rfl, second _ rfl _ rfl⟩

end Permutation

end TypeDomains
