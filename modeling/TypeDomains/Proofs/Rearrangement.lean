import Mathlib.Data.List.Perm.Basic
import TypeDomains.Proofs.Pipeline

/-!
# Statements in another order

Of the domains before it, a definition needs its base and nothing else. So where each permutation
still stands behind the definition of its base, the statements of a universe come to the same
domains in any order, and transforms may stand anywhere (`Universe.outcomes_rearranged`).
-/

namespace TypeDomains

namespace Domain

variable {ds es : List Domain} {d : Domain}

theorem find?_iff (h : (ds.map tag).Nodup) {name : String} :
    find? ds name = some d ↔ d ∈ ds ∧ d.tag = name :=
  find?_iff_of_nodup h

/-- Where tags are distinct, what a tag leads to does not depend on the order. -/
theorem find?_of_perm (h : es.Perm ds) (tags : (ds.map tag).Nodup) (name : String) :
    find? es name = find? ds name := by
  have tags' : (es.map tag).Nodup := (h.map tag).nodup_iff.2 tags
  apply Option.ext
  intro d
  rw [find?_iff tags', find?_iff tags, h.mem_iff]

end Domain

namespace Statement

/-- The tag of the domain that the statement defines. -/
def tag? : Statement → Option String
  | domain d => some d.tag
  | permutation p => some p.tag
  | transform _ => none

/-- The tag of the domain that the statement builds on. -/
def base? : Statement → Option String
  | permutation p => some p.base
  | domain _ | transform _ => none

/-- Where a statement builds on a domain, one before it defines that domain. -/
def BasesFirst (xs : List Statement) : Prop :=
  ∀ before x after base, xs = before ++ x :: after → x.base? = some base →
    ∃ y ∈ before, y.tag? = some base

variable {x : Statement} {xs ys rest : List Statement} {d : Domain}
  {ds es olds news : List Domain}

/-! ## One definition -/

theorem Defines.tag (h : x.Defines ds d) : x.tag? = some d.tag := by
  cases x with
  | domain c =>
    obtain rfl : c = d := h
    rfl
  | permutation p =>
    obtain ⟨_, -, _, -, rfl⟩ := Permutation.toDomain_ok.1 h
    rfl
  | transform t => exact h.elim

theorem tag?_eq_none (h : x.isDefinition = false) : x.tag? = none := by
  cases x with
  | domain _ | permutation _ => cases h
  | transform t => rfl

/-- Behind other domains a statement defines the same, if they have the same base. -/
theorem Defines.of_base (h : x.Defines ds d)
    (base : ∀ name b, x.base? = some name → Domain.find? ds name = some b →
      Domain.find? es name = some b) : x.Defines es d := by
  cases x with
  | domain c => exact h
  | permutation p =>
    obtain ⟨b, found, altered⟩ := Permutation.toDomain_ok.1 h
    exact Permutation.toDomain_ok.2 ⟨b, base p.base b rfl found, altered⟩
  | transform t => exact h.elim

/-- What a base is among all domains, it is among those that are there so far. -/
theorem Defines.among (h : x.Defines ds d) (tags : (ds.map Domain.tag).Nodup) (sub : olds ⊆ ds)
    (base : ∀ name, x.base? = some name → name ∈ olds.map Domain.tag) : x.Defines olds d := by
  refine h.of_base ?_
  intro name b hname found
  obtain ⟨e, he⟩ := Option.isSome_iff_exists.1 (isSome_find?_iff.2 (base name hname))
  have member : e ∈ ds := sub (List.mem_of_find?_eq_some he)
  have tag : e.tag = name := by simpa using List.find?_some he
  have same : some b = some e := by rw [← found, (Domain.find?_iff tags).2 ⟨member, tag⟩]
  rw [he, same]

/-! ## All definitions -/

/-- Each definition makes its domain from the list of all of them. -/
theorem Builds.defines (h : Builds xs ds) : List.Forall₂ (Defines ds) (definitions xs) ds := by
  refine List.forall₂_iff_get.2 ⟨h.count.symm, ?_⟩
  intro k hx hd
  have defined := h.defined k _ _ (List.getElem?_eq_getElem hx) (List.getElem?_eq_getElem hd)
  refine Defines.of_base defined ?_
  intro name b _ found
  exact (List.take_prefix k ds).find?_eq_some found

theorem Builds.of_definitions (h : Builds xs ds) (same : definitions ys = definitions xs) :
    Builds ys ds where
  count := by rw [same, h.count]
  tags := h.tags
  checked := h.checked
  defined := by
    rw [same]
    exact h.defined

/-- Statements come to domains only if each base is defined before it is built on. -/
theorem Builds.basesFirst (h : Builds xs ds) : BasesFirst xs := by
  rintro before x after base rfl hbase
  have run := foldlM_define_ok.2 h
  rw [List.foldlM_append] at run
  obtain ⟨olds, first, run⟩ := bind_ok.1 run
  rw [List.foldlM_cons] at run
  obtain ⟨_, step, -⟩ := bind_ok.1 run
  cases x with
  | domain _ | transform _ => cases hbase
  | permutation p =>
    obtain rfl : p.base = base := Option.some.inj hbase
    rcases define_ok.1 step with ⟨transform, -⟩ | ⟨d, defines, -⟩
    · cases transform
    · obtain ⟨b, found, -⟩ := Permutation.toDomain_ok.1 defines
      have member : b ∈ olds := List.mem_of_find?_eq_some found
      have tag : b.tag = p.base := by simpa using List.find?_some found
      obtain ⟨y, hy, makes⟩ := exists_of_forall₂_right (foldlM_define_ok.1 first).defines member
      exact ⟨y, (List.mem_filter.1 hy).1, by rw [makes.tag, tag]⟩

/-- A run over statements whose domains are known: behind those of the statements before, it puts
one domain after the other. -/
theorem foldlM_define_of_basesFirst (before : List Statement) (tags : (ds.map Domain.tag).Nodup)
    (checked : ∀ d ∈ ds, d.check = .ok ()) (bases : BasesFirst (before ++ rest))
    (known : before.filterMap tag? = olds.map Domain.tag)
    (makes : List.Forall₂ (Defines ds) (definitions rest) news) (sub : olds ++ news ⊆ ds)
    (new : ((olds ++ news).map Domain.tag).Nodup) :
    rest.foldlM define olds = .ok (olds ++ news) := by
  induction rest generalizing before olds news with
  | nil =>
    cases makes
    simp [pure, Except.pure]
  | cons x rest ih =>
    have later : BasesFirst ((before ++ [x]) ++ rest) := by
      rw [List.append_assoc]
      exact bases
    rw [List.foldlM_cons, bind_ok]
    cases hx : x.isDefinition with
    | false =>
      have skipped : definitions (x :: rest) = definitions rest := by simp [definitions, hx]
      rw [skipped] at makes
      refine ⟨olds, define_ok.2 (.inl ⟨hx, rfl⟩), ih _ later ?_ makes sub new⟩
      simp [tag?_eq_none hx, known]
    | true =>
      have taken : definitions (x :: rest) = x :: definitions rest := by simp [definitions, hx]
      rw [taken] at makes
      obtain ⟨d, news, defines, others, rfl⟩ := List.forall₂_cons_left_iff.1 makes
      rw [List.append_cons] at sub new ⊢
      have defines' : x.Defines olds d := by
        refine defines.among tags (fun e he => sub (by simp [he])) ?_
        intro name hname
        obtain ⟨y, hy, tag⟩ := bases before x rest name rfl hname
        rw [← known]
        exact List.mem_filterMap.2 ⟨y, hy, tag⟩
      have fresh : d.tag ∉ olds.map Domain.tag := by
        rw [List.map_append, List.map_append, List.map_singleton] at new
        have first := (List.nodup_append.1 new).1
        rw [← List.concat_eq_append, List.nodup_concat] at first
        exact first.1
      have check : d.check = .ok () := checked d (sub (by simp))
      refine ⟨olds ++ [d], define_ok.2 (.inr ⟨d, defines', fresh, check, rfl⟩), ?_⟩
      refine ih _ later ?_ others sub new
      simp [defines.tag, known]

/-- Another order of statements builds the same domains in another order. -/
theorem Builds.rearrange (h : Builds xs ds) (perm : ys.Perm xs) (bases : BasesFirst ys) :
    ∃ es, Builds ys es ∧ es.Perm ds := by
  have definitions : (definitions ys).Perm (definitions xs) := perm.filter isDefinition
  obtain ⟨es, makes, same⟩ := List.perm_comp_forall₂ definitions h.defines
  have tags : (es.map Domain.tag).Nodup := (same.map Domain.tag).nodup_iff.2 h.tags
  have run : ys.foldlM define [] = .ok es :=
    foldlM_define_of_basesFirst [] h.tags h.checked bases rfl makes same.subset tags
  exact ⟨es, foldlM_define_ok.1 run, same⟩

end Statement

/-- Transforms find the same domains, wherever these stand. -/
theorem Transform.difference_of_perm {ds es : List Domain} (same : es.Perm ds)
    (tags : (ds.map Domain.tag).Nodup) : difference es = difference ds := by
  funext t
  simp only [difference, side, Domain.find?_of_perm same tags]

/-! ## Universes -/

namespace Universe

/-- The same statements in an order in which each base is still defined before it is built on. -/
structure Rearranges (v u : Universe) : Prop where
  statements : v.statements.Perm u.statements
  bases : Statement.BasesFirst v.statements

variable {u v : Universe} {ds es xs : List Domain}

theorem domains_of_rearranges (h : u.domains = .ok ds) (hv : v.Rearranges u) :
    ∃ es, v.domains = .ok es ∧ es.Perm ds := by
  obtain ⟨nonempty, built⟩ := domains_ok.1 h
  obtain ⟨es, built', same⟩ := built.rearrange hv.statements hv.bases
  refine ⟨es, domains_ok.2 ⟨?_, built'⟩, same⟩
  intro empty
  have perm := hv.statements
  rw [empty] at perm
  exact nonempty perm.symm.eq_nil

/-- Where the transforms of one universe come to something, those of another order come to the
same, each by itself. -/
theorem differences_of_perm (perm : v.transforms.Perm u.transforms)
    (same : Transform.difference es = Transform.difference ds) (h : u.differences ds = .ok xs) :
    ∃ δ : Transform → Domain, u.transforms.map δ = xs ∧
      v.differences es = .ok (v.transforms.map δ) := by
  have : Nonempty Domain := ⟨⟨"", [], .unknown⟩⟩
  obtain ⟨δ, hδ, hxs⟩ := exists_map_of_mapM h
  refine ⟨δ, hxs, mapM_of_forall ?_⟩
  intro t ht
  rw [same]
  exact hδ t (perm.subset ht)

/-- **Statements in another order.** If a universe comes to domains, so do its statements in any
order in which each base is still defined before it is built on. The domains are the same in another
order, each under its tag; the transforms succeed or fail as before, and each transform comes to the
same difference. Where transforms alone are moved, bases are always defined in time. -/
theorem outcomes_rearranged (h : u.domains = .ok ds) :
    (∀ v : Universe, v.Rearranges u → ∃ es, v.domains = .ok es ∧ es.Perm ds ∧
      (∀ tag, Domain.find? es tag = Domain.find? ds tag) ∧
      ((∃ ys, v.differences es = .ok ys) ↔ ∃ xs, u.differences ds = .ok xs) ∧
      ∀ xs, u.differences ds = .ok xs → ∃ δ : Transform → Domain,
        u.transforms.map δ = xs ∧ v.differences es = .ok (v.transforms.map δ)) ∧
    ∀ v : Universe, v.statements.Perm u.statements →
      Statement.definitions v.statements = Statement.definitions u.statements →
        v.Rearranges u := by
  have built := (domains_ok.1 h).2
  constructor
  · intro v hv
    obtain ⟨es, hes, perm⟩ := domains_of_rearranges h hv
    have transforms : v.transforms.Perm u.transforms := hv.statements.filterMap _
    have same := Transform.difference_of_perm perm built.tags
    refine ⟨es, hes, perm, Domain.find?_of_perm perm built.tags, ?_, ?_⟩
    · constructor
      · rintro ⟨ys, hys⟩
        obtain ⟨δ, -, hxs⟩ := differences_of_perm transforms.symm same.symm hys
        exact ⟨_, hxs⟩
      · rintro ⟨xs, hxs⟩
        obtain ⟨δ, -, hys⟩ := differences_of_perm transforms same hxs
        exact ⟨_, hys⟩
    · intro xs hxs
      exact differences_of_perm transforms same hxs
  · intro v perm same
    exact ⟨perm, (built.of_definitions same).basesFirst⟩

/-- A domain, a permutation of it, a transform to a domain that is not defined yet, and that
domain. -/
def forward : Universe :=
  ⟨[.domain ⟨"a", [.tuple ⟨"p", .product, [⟨"i", "", ⟨"int", .required, .unknown⟩, .unknown⟩],
      false, .unknown⟩], .unknown⟩,
    .permutation ⟨"b", "a", [], [.tuple ⟨"q", .product, [], false, .unknown⟩], [], .unknown⟩,
    .transform ⟨"b", "c", .unknown⟩,
    .domain ⟨"c", [.tuple ⟨"p", .product, [], false, .unknown⟩], .unknown⟩]⟩

/-- The transform first, and the second domain before the one that is permuted. -/
def shuffled : Universe :=
  ⟨[.transform ⟨"b", "c", .unknown⟩,
    .domain ⟨"c", [.tuple ⟨"p", .product, [], false, .unknown⟩], .unknown⟩,
    .domain ⟨"a", [.tuple ⟨"p", .product, [⟨"i", "", ⟨"int", .required, .unknown⟩, .unknown⟩],
      false, .unknown⟩], .unknown⟩,
    .permutation ⟨"b", "a", [], [.tuple ⟨"q", .product, [], false, .unknown⟩], [], .unknown⟩]⟩

theorem rearranges_shuffled : shuffled.Rearranges forward where
  statements := by decide
  bases := by
    intro before x after base split hbase
    simp only [shuffled, List.cons_eq_append_iff, List.cons.injEq, List.nil_eq_append_iff,
      reduceCtorEq, and_false, or_false, exists_false] at split
    rcases split with ⟨rfl, rfl, -⟩ | ⟨_, rfl, ⟨rfl, rfl, -⟩ | ⟨_, rfl, ⟨rfl, rfl, -⟩ |
      ⟨_, rfl, rfl, rfl, -⟩⟩⟩
    · cases hbase
    · cases hbase
    · cases hbase
    · obtain rfl : "a" = base := Option.some.inj hbase
      simp [Statement.tag?]

theorem outcomes_rearranged_shuffled : ∃ ds es δ, forward.domains = .ok ds ∧
    ds.map Domain.tag = ["a", "b", "c"] ∧ shuffled.Rearranges forward ∧
    shuffled.domains = .ok es ∧ es.Perm ds ∧ es.map Domain.tag = ["c", "a", "b"] ∧
    forward.differences ds = .ok (forward.transforms.map δ) ∧
    shuffled.differences es = .ok (shuffled.transforms.map δ) := by
  obtain ⟨ds, hds, tags, xs, hxs⟩ : ∃ ds, forward.domains = .ok ds ∧
      ds.map Domain.tag = ["a", "b", "c"] ∧ ∃ xs, forward.differences ds = .ok xs :=
    ⟨_, rfl, rfl, _, rfl⟩
  obtain ⟨es, hes, perm, -, -, differences⟩ :=
    (outcomes_rearranged hds).1 shuffled rearranges_shuffled
  obtain ⟨δ, rfl, hys⟩ := differences xs hxs
  have tags' : shuffled.domains.map (List.map Domain.tag) = .ok ["c", "a", "b"] := rfl
  rw [hes] at tags'
  exact ⟨ds, es, δ, hds, tags, rearranges_shuffled, hes, perm, Except.ok.inj tags', hxs, hys⟩

end Universe

end TypeDomains
