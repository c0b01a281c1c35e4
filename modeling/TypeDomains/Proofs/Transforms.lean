import TypeDomains.Proofs.Rearrangement
import TypeDomains.Proofs.Recompilation

/-!
# Compiling without transforms

Transforms are looked at behind all domains, one after the other, and the domains do not depend on
them (`Compilation.ofFile_stages`). So to look at them makes a difference only where one of them
names a domain that is not defined (`Universe.differences_error`), and for what is reported of them
(`Compilation.ofFile_withoutTransforms`).
-/

namespace TypeDomains

/-! ## What transforms find -/

namespace Transform

variable {ds : List Domain} {d : Domain} {t : Transform} {tag : String}

theorem side_ok : t.side ds tag = .ok d ↔ Domain.find? ds tag = some d := by
  unfold side
  cases Domain.find? ds tag <;> simp

theorem side_error {e : DomainError} : t.side ds tag = .error e ↔
    Domain.find? ds tag = none ∧ e = ⟨.transformedMissing tag, t.location⟩ := by
  unfold side
  cases Domain.find? ds tag <;> simp [eq_comm]

/-- The difference is that of the domains that the transform names. -/
def Shows (ds : List Domain) (t : Transform) (d : Domain) : Prop :=
  ∃ source destination, Domain.find? ds t.source = some source ∧
    Domain.find? ds t.destination = some destination ∧ d = source.differenceFrom destination

theorem difference_ok : t.difference ds = .ok d ↔ Shows ds t d := by
  simp only [difference, bind_ok, pure_ok, side_ok, Shows, exists_and_left, eq_comm (a := d)]

end Transform

namespace Universe

/-- A definition of the universe has the tag. -/
def Names (u : Universe) (tag : String) : Prop := ∃ x ∈ u.statements, x.tag? = some tag

/-- The transform names a tag that no definition has, and the error is blamed on it. The source is
looked for first. -/
inductive Misses (u : Universe) (t : Transform) : DomainError → Prop
  | source (missing : ¬u.Names t.source) : Misses u t ⟨.transformedMissing t.source, t.location⟩
  | destination (named : u.Names t.source) (missing : ¬u.Names t.destination) :
      Misses u t ⟨.transformedMissing t.destination, t.location⟩

variable {u : Universe} {ds xs : List Domain} {t : Transform} {e : DomainError} {tag : String}

/-- A domain is found wherever it is defined. -/
theorem names_iff (h : u.domains = .ok ds) : u.Names tag ↔ ∃ d, Domain.find? ds tag = some d := by
  have makes := (domains_ok.1 h).2.defines
  rw [← Option.isSome_iff_exists, Statement.isSome_find?_iff]
  constructor
  · rintro ⟨x, hx, htag⟩
    have definition : x.isDefinition = true := by
      by_contra transform
      rw [Statement.tag?_eq_none (Bool.eq_false_iff.2 transform)] at htag
      cases htag
    obtain ⟨d, hd, defines⟩ := exists_of_forall₂_left makes (List.mem_filter.2 ⟨hx, definition⟩)
    rw [defines.tag] at htag
    rw [← Option.some.inj htag]
    exact List.mem_map_of_mem hd
  · intro htag
    obtain ⟨d, hd, rfl⟩ := List.mem_map.1 htag
    obtain ⟨x, hx, defines⟩ := exists_of_forall₂_right makes hd
    exact ⟨x, (List.mem_filter.1 hx).1, defines.tag⟩

theorem not_names_iff (h : u.domains = .ok ds) : ¬u.Names tag ↔ Domain.find? ds tag = none := by
  rw [names_iff h, ← Option.isSome_iff_exists, Option.not_isSome_iff_eq_none]

theorem exists_difference_iff (h : u.domains = .ok ds) :
    (∃ d, t.difference ds = .ok d) ↔ u.Names t.source ∧ u.Names t.destination := by
  simp only [Transform.difference_ok, names_iff h]
  constructor
  · rintro ⟨_, source, destination, hsource, hdestination, -⟩
    exact ⟨⟨source, hsource⟩, destination, hdestination⟩
  · rintro ⟨⟨source, hsource⟩, destination, hdestination⟩
    exact ⟨_, source, destination, hsource, hdestination, rfl⟩

theorem difference_error (h : u.domains = .ok ds) : t.difference ds = .error e ↔ u.Misses t e := by
  have goes (a b : Domain) : (pure (a.differenceFrom b) : Except DomainError Domain) ≠ .error e := by
    intro done
    cases done
  simp only [Transform.difference, bind_error, Transform.side_error, Transform.side_ok, goes,
    and_false, exists_false, or_false]
  constructor
  · rintro (⟨missing, rfl⟩ | ⟨source, found, missing, rfl⟩)
    · exact .source ((not_names_iff h).2 missing)
    · exact .destination ((names_iff h).2 ⟨source, found⟩) ((not_names_iff h).2 missing)
  · intro misses
    cases misses with
    | source missing => exact .inl ⟨(not_names_iff h).1 missing, rfl⟩
    | destination named missing =>
      obtain ⟨source, found⟩ := (names_iff h).1 named
      exact .inr ⟨source, found, (not_names_iff h).1 missing, rfl⟩

theorem differences_ok :
    u.differences ds = .ok xs ↔ List.Forall₂ (Transform.Shows ds) u.transforms xs := by
  unfold differences
  rw [mapM_ok]
  exact Iff.of_eq (congrArg (List.Forall₂ · _ _) (by ext; exact Transform.difference_ok))

/-- The transforms fail with the first that misses a domain. -/
theorem differences_error (h : u.domains = .ok ds) : u.differences ds = .error e ↔
    ∃ before t after, u.transforms = before ++ t :: after ∧
      (∀ r ∈ before, u.Names r.source ∧ u.Names r.destination) ∧ u.Misses t e := by
  simp only [differences, mapM_error, exists_difference_iff h, difference_error h]

end Universe

/-! ## Whole runs -/

namespace Compilation

variable {s : Sources} {main : Path} {u : Universe} {ds : List Domain} {c : Compilation}

/-- What comes out if no transform is looked at. -/
def withoutTransforms (c : Compilation) : Compilation := { c with differences := [] }

/-- The lines of a summary that are about transforms. -/
def transformLines (c : Compilation) : List String :=
  (c.source.transforms.zip c.differences).map fun (t, d) => t.line d

theorem summary_withoutTransforms (c : Compilation) :
    c.withoutTransforms.summary = "\n".intercalate (c.domains.map Domain.line) := by
  simp [summary, lines, withoutTransforms]

/-- The transform lines stand behind those of the domains, each on a line of its own. -/
theorem summary_eq (nonempty : c.domains ≠ []) :
    c.summary = "\n".intercalate (c.withoutTransforms.summary :: c.transformLines) := by
  have lines_eq : c.lines = c.domains.map Domain.line ++ c.transformLines := rfl
  rw [summary, lines_eq, summary_withoutTransforms]
  cases behind : c.transformLines with
  | nil => rw [List.append_nil, String.intercalate_singleton]
  | cons line lines =>
    have front : c.domains.map Domain.line ≠ [] := by simpa using nonempty
    rw [String.intercalate_append_of_ne_nil front (List.cons_ne_nil line lines),
      String.intercalate_cons_cons]

theorem ofUniverse_of_domains (h : u.domains = .ok ds) :
    ofUniverse true u = (u.differences ds).map (mk u ds) := by
  rw [ofUniverse, h]
  change (u.differences ds >>= fun differences => .ok (mk u ds differences)) = _
  cases u.differences ds <;> rfl

theorem ofFile_of_toUniverse (h : (s.ofFile main).toUniverse = .ok u) (withTransforms : Bool) :
    ofFile s withTransforms main = (ofUniverse withTransforms u).mapError .domain :=
  ofExpansion_of_toUniverse h

/-- A run fails before its transforms matter, or it comes to a universe and its domains whether
they are looked at or not. -/
theorem ofFile_stages (s : Sources) (main : Path) :
    (∃ e, ∀ withTransforms, ofFile s withTransforms main = .error e) ∨
    ∃ u ds, (s.ofFile main).toUniverse = .ok u ∧ u.domains = .ok ds ∧
      ofFile s false main = .ok ⟨u, ds, []⟩ ∧
      ofFile s true main = ((u.differences ds).map (mk u ds)).mapError .domain := by
  cases hu : (s.ofFile main).toUniverse with
  | error e =>
    left
    refine ⟨.source e, fun withTransforms => ?_⟩
    rw [ofFile, ofExpansion, hu]
    rfl
  | ok u =>
    cases hds : u.domains with
    | error e =>
      left
      refine ⟨.domain e, fun withTransforms => ?_⟩
      rw [ofFile_of_toUniverse hu, ofUniverse, hds]
      rfl
    | ok ds =>
      right
      refine ⟨u, ds, rfl, hds, ?_, ?_⟩
      · rw [ofFile_of_toUniverse hu, ofUniverse, hds]
        rfl
      · rw [ofFile_of_toUniverse hu, ofUniverse_of_domains hds]

/-- **Compiling without transforms.** If a main file compiles with its transforms, it compiles
without them: to the same universe and the same domains, which are printed alike, and to a summary
that lacks the lines about transforms. Each of the transforms came to the difference of the two
domains that it names. If a main file does not compile without its transforms, it fails with the
same error with them. If it fails only with them, the error is blamed on the first transform in the
universe that names a tag which no definition has. -/
theorem ofFile_withoutTransforms (s : Sources) (main : Path) :
    (∀ c, ofFile s true main = .ok c →
      ofFile s false main = .ok c.withoutTransforms ∧
      c.withoutTransforms.printed = c.printed ∧
      c.summary = "\n".intercalate (c.withoutTransforms.summary :: c.transformLines) ∧
      (c.domains.map Domain.tag).Nodup ∧
      List.Forall₂ (Transform.Shows c.domains) c.source.transforms c.differences) ∧
    (∀ e, ofFile s false main = .error e → ofFile s true main = .error e) ∧
    ∀ c, ofFile s false main = .ok c → (s.ofFile main).toUniverse = .ok c.source ∧
      ∀ e, ofFile s true main = .error e ↔
        ∃ before t after missed, c.source.transforms = before ++ t :: after ∧
          (∀ r ∈ before, c.source.Names r.source ∧ c.source.Names r.destination) ∧
          c.source.Misses t missed ∧ e = .domain missed := by
  rcases ofFile_stages s main with ⟨e, fails⟩ | ⟨u, ds, hu, hds, bare, full⟩
  · refine ⟨fun c h => ?_, fun e' h => ?_, fun c h => ?_⟩
    · rw [fails] at h
      cases h
    · rwa [fails] at h ⊢
    · rw [fails] at h
      cases h
  · refine ⟨fun c h => ?_, fun e h => ?_, fun c h => ?_⟩
    · rw [full, mapError_ok, map_ok] at h
      obtain ⟨differences, hdifferences, rfl⟩ := h
      have compiled : ofUniverse true u = .ok ⟨u, ds, differences⟩ := by
        rw [ofUniverse_of_domains hds, hdifferences]
        rfl
      exact ⟨bare, rfl, summary_eq (domains_ne_nil compiled), (Universe.domains_ok.1 hds).2.tags,
        Universe.differences_ok.1 hdifferences⟩
    · rw [bare] at h
      cases h
    · rw [bare] at h
      obtain rfl := Except.ok.inj h
      refine ⟨hu, fun e => ?_⟩
      have fails : ofFile s true main = .error e ↔
          ∃ missed, u.differences ds = .error missed ∧ e = .domain missed := by
        rw [full]
        cases u.differences ds <;> simp [Except.map, Except.mapError, eq_comm]
      simp only [fails, Universe.differences_error hds]
      constructor
      · rintro ⟨missed, ⟨before, t, after, split, named, misses⟩, rfl⟩
        exact ⟨before, t, after, missed, split, named, misses, rfl⟩
      · rintro ⟨before, t, after, missed, split, named, misses, rfl⟩
        exact ⟨missed, ⟨before, t, after, split, named, misses⟩, rfl⟩

/-- A transform to a domain that is not defined, behind one of a domain that comes later, and a
text that breaks off. -/
def amiss : Sources :=
  ⟨⟨[(⟨["a"]⟩, .file (.text "(transform x x)(transform x y)(define x (domain (product p)))")),
    (⟨["b"]⟩, .file (.text "(transform x"))], ⟨"/"⟩⟩, []⟩

theorem ofFile_amiss : ∃ c, ofFile amiss false ⟨"a"⟩ = .ok c ∧ ofFile amiss true ⟨"a"⟩ =
    .error (.domain ⟨.transformedMissing "y", ⟨some "/a", 1, 16⟩⟩) := by
  simp only [ofFile, Evaluation.ofFile_eq]
  decide +kernel

theorem ofFile_amiss_broken : ofFile amiss false ⟨"b"⟩ =
    .error (.source ⟨.text .openList, ⟨some "/b", 1, 1⟩⟩) := by
  rw [ofFile, Evaluation.ofFile_eq]
  decide +kernel

theorem ofFile_withoutTransforms_amiss :
    (∃ c, ofFile spliced true ⟨"a"⟩ = .ok c ∧ c.domains.map Domain.tag = ["x", "y"] ∧
      ofFile spliced false ⟨"a"⟩ = .ok c.withoutTransforms ∧
      c.summary = "\n".intercalate (c.withoutTransforms.summary :: c.transformLines) ∧
      List.Forall₂ (Transform.Shows c.domains) c.source.transforms c.differences) ∧
    (∃ c, ofFile amiss false ⟨"a"⟩ = .ok c ∧ ∃ before t after, c.source.transforms =
      before ++ t :: after ∧ (∀ r ∈ before, c.source.Names r.source ∧ c.source.Names r.destination) ∧
        c.source.Misses t ⟨.transformedMissing "y", ⟨some "/a", 1, 16⟩⟩) ∧
    ∃ e, ofFile amiss false ⟨"b"⟩ = .error e ∧ ofFile amiss true ⟨"b"⟩ = .error e := by
  refine ⟨?_, ?_, ?_⟩
  · obtain ⟨c, compiled, tags⟩ := ofFile_spliced
    obtain ⟨bare, -, summary, -, shown⟩ :=
      (ofFile_withoutTransforms spliced ⟨"a"⟩).1 c compiled
    exact ⟨c, compiled, tags, bare, summary, shown⟩
  · obtain ⟨c, hc, fails⟩ := ofFile_amiss
    obtain ⟨before, t, after, missed, split, named, misses, same⟩ :=
      ((ofFile_withoutTransforms amiss ⟨"a"⟩).2.2 c hc).2 _ |>.1 fails
    obtain rfl := CompileError.domain.inj same
    exact ⟨c, hc, before, t, after, split, named, misses⟩
  · exact ⟨_, ofFile_amiss_broken,
      (ofFile_withoutTransforms amiss ⟨"b"⟩).2.1 _ ofFile_amiss_broken⟩

end Compilation

end TypeDomains
