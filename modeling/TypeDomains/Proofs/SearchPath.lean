import TypeDomains.Proofs.Evaluation
import TypeDomains.Proofs.Walk

/-!
# More directories to search

Directories that are searched after all others are looked into only for includes that are found
nowhere else. So where no include is missing, an expansion does not notice them: each step comes to
the same, hence so does the whole walk (`Sources.agrees_expand`) and the universe of a main file
(`Sources.ofFile_searchingAlso`).
-/

namespace TypeDomains

def SourceFault.isMissing : SourceFault → Bool
  | includeMissing _ _ => true
  | _ => false

/-- If it fails, then not because an include is missing. -/
def NoneMissing {α : Type} (x : Except SourceError α) : Prop :=
  ∀ e, x = .error e → e.cause.isMissing = false

theorem NoneMissing.of_map {α β : Type} {x : Except SourceError α} {f : α → β}
    (h : NoneMissing (x.map f)) : NoneMissing x := by
  rintro e rfl
  exact h e rfl

theorem NoneMissing.of_bind {α β : Type} {x : Except SourceError α}
    {f : α → Except SourceError β} (h : NoneMissing (x >>= f)) : NoneMissing x := by
  rintro e rfl
  exact h e rfl

namespace Expansion

/-- The expansions differ at most in the paths that were looked for. -/
structure Agrees (x y : Expansion) : Prop where
  statements : x.statements = y.statements
  seen : x.seen = y.seen
  reads : x.reads = y.reads

namespace Agrees

variable {x y : Expansion}

theorem refl (x : Expansion) : x.Agrees x := ⟨rfl, rfl, rfl⟩

theorem ask (h : x.Agrees y) (ps qs : List Path) : (x.ask ps).Agrees (y.ask qs) :=
  ⟨h.statements, h.seen, h.reads⟩

theorem prepend (h : x.Agrees y) (s : Statement) : (x.prepend s).Agrees (y.prepend s) :=
  ⟨congrArg (Except.map (s :: ·)) h.statements, h.seen, h.reads⟩

theorem read (h : x.Agrees y) (p : Place) : (x.read p).Agrees (y.read p) :=
  ⟨h.statements, h.seen, congrArg (p :: ·) h.reads⟩

end Agrees

end Expansion

namespace Sources

/-- The same files with more directories to search, after all others. -/
def searchingAlso (s : Sources) (more : List Path) : Sources :=
  ⟨s.files, s.searchDirs ++ more⟩

variable {s : Sources} {seen : List Route} {f : PlacedForm} {fs : List PlacedForm} {base : Path}
  {literal : String} {l : Location}

@[simp]
theorem files_searchingAlso (s : Sources) (more : List Path) :
    (s.searchingAlso more).files = s.files := rfl

@[simp]
theorem forms_searchingAlso (s : Sources) (more : List Path) (p : Place) (l : Location) :
    (s.searchingAlso more).forms p l = s.forms p l := rfl

/-! ## One form -/

theorem candidates_searchingAlso (s : Sources) (more : List Path) (base : Path)
    (literal : String) : ∃ others, (s.searchingAlso more).candidates base literal =
      s.candidates base literal ++ others := by
  unfold candidates searchingAlso
  cases IncludePath.relative? literal with
  | none => exact ⟨[], rfl⟩
  | some p => exact ⟨more.map (·.within p), by simp⟩

/-- The first candidate that is a file stays the first. -/
theorem find_searchingAlso (more : List Path) (h : NoneMissing (s.find base literal l)) :
    (s.searchingAlso more).find base literal l = s.find base literal l := by
  obtain ⟨others, candidates⟩ := candidates_searchingAlso s more base literal
  by_cases refused : (IncludePath.relative? literal).isNone
  · rw [find, find, if_pos refused, if_pos refused]
  · cases found : (s.candidates base literal).findSome? s.files.file? with
    | none =>
      have missing : s.find base literal l =
          .error ⟨.includeMissing literal (s.candidates base literal), l⟩ := by
        rw [find, if_neg refused, found]
      cases h _ missing
    | some place =>
      have first : ((s.searchingAlso more).candidates base literal).findSome? s.files.file? =
          some place := by
        rw [candidates, List.findSome?_append, found, Option.some_or]
      rw [find, find, if_neg refused, if_neg refused, files_searchingAlso, first, found]

theorem step_searchingAlso (more : List Path) (h : NoneMissing (s.step seen f)) :
    (s.searchingAlso more).step seen f = s.step seen f := by
  unfold step at h ⊢
  cases hf : Form.ofSExpr f.form with
  | error e => rfl
  | ok form =>
    rw [hf] at h
    cases form with
    | statement x => rfl
    | inclusion literal l =>
      have found : NoneMissing (s.find f.base literal l) := NoneMissing.of_bind h
      dsimp only [bind, Except.bind]
      rw [find_searchingAlso more found]

/-! ## The walk -/

theorem agrees_expand (more : List Path) (h : NoneMissing (s.expand seen fs).statements) :
    (s.expand seen fs).Agrees ((s.searchingAlso more).expand seen fs) := by
  induction seen, fs using Sources.expand.induct s with
  | case1 seen =>
    rw [expand_nil, expand_nil]
    exact .refl _
  | case2 seen f fs ih ihFile =>
    rw [expand_cons] at h ⊢
    rw [expand_cons]
    refine Expansion.Agrees.ask ?_ _ _
    have step : NoneMissing (s.step seen f) := by
      intro e he
      rw [he] at h
      exact h e rfl
    rw [step_searchingAlso more step]
    cases hs : s.step seen f with
    | error e => exact .refl _
    | ok k =>
      rw [hs] at h
      cases k with
      | statement x => exact (ih h.of_map).prepend x
      | nothing => exact ih h
      | file p l =>
        refine Expansion.Agrees.read ?_ p
        rw [forms_searchingAlso]
        cases hg : s.forms p l with
        | error e => exact .refl _
        | ok gs =>
          dsimp only [Expansion.ask, Expansion.read] at h
          rw [hg] at h
          exact ihFile p l hs gs h

theorem agrees_ofFile (more : List Path) (main : Path)
    (h : NoneMissing (s.ofFile main).statements) :
    (s.ofFile main).Agrees ((s.searchingAlso more).ofFile main) := by
  unfold ofFile at h ⊢
  refine Expansion.Agrees.ask ?_ _ _
  rw [files_searchingAlso]
  cases hp : s.files.locate main with
  | error reason => exact .refl _
  | ok p =>
    refine Expansion.Agrees.read ?_ p
    rw [forms_searchingAlso]
    cases hg : s.forms p (Location.ofFile main.text) with
    | error e => exact .refl _
    | ok gs =>
      dsimp only [Expansion.ask, Expansion.read] at h
      simp only [hp, hg] at h
      exact agrees_expand more h

/-- **More directories to search.** If a main file leads to a universe, it leads to the same, at the
same locations, with more directories to search after those there are. If it fails, and not because
an include is missing, it fails with the same error. -/
theorem ofFile_searchingAlso (s : Sources) (more : List Path) (main : Path) :
    (∀ u, (s.ofFile main).toUniverse = .ok u →
      ((s.searchingAlso more).ofFile main).toUniverse = .ok u) ∧
    ∀ e, (s.ofFile main).toUniverse = .error e → e.cause.isMissing = false →
      ((s.searchingAlso more).ofFile main).toUniverse = .error e := by
  have same (h : NoneMissing (s.ofFile main).toUniverse) :
      ((s.searchingAlso more).ofFile main).toUniverse = (s.ofFile main).toUniverse := by
    unfold Expansion.toUniverse
    rw [(agrees_ofFile more main h.of_map).statements]
  constructor
  · intro u h
    rw [same, h]
    intro e he
    rw [h] at he
    cases he
  · intro e h found
    rw [same, h]
    intro f hf
    rw [h] at hf
    cases hf
    exact found

/-- Two main files, each including a file of the one directory that is searched: the first a
transform of which there is another version in a directory that is not searched, the second a text
that breaks off. -/
def shadowed : Sources :=
  ⟨⟨[(⟨["a"]⟩, .file (.text "(include_file \"b\")")),
    (⟨["c"]⟩, .file (.text "(include_file \"d\")")),
    (⟨["lib", "b"]⟩, .file (.text "(transform x y)")),
    (⟨["lib", "d"]⟩, .file (.text "(transform x")),
    (⟨["spare", "b"]⟩, .file (.text "(transform y x)"))], ⟨"/"⟩⟩, [⟨"lib"⟩]⟩

theorem toUniverse_shadowed : (shadowed.ofFile ⟨"a"⟩).toUniverse =
    .ok ⟨[.transform ⟨"x", "y", ⟨some "/lib/b", 1, 1⟩⟩]⟩ := by
  rw [Evaluation.ofFile_eq]
  decide +kernel

theorem toUniverse_shadowed_broken : ∃ e, (shadowed.ofFile ⟨"c"⟩).toUniverse = .error e ∧
    e.cause.isMissing = false := by
  rw [Evaluation.ofFile_eq]
  decide +kernel

theorem ofFile_searchingAlso_shadowed :
    ((shadowed.searchingAlso [⟨"spare"⟩]).ofFile ⟨"a"⟩).toUniverse =
      .ok ⟨[.transform ⟨"x", "y", ⟨some "/lib/b", 1, 1⟩⟩]⟩ ∧
    ∃ e, (shadowed.ofFile ⟨"c"⟩).toUniverse = .error e ∧ e.cause.isMissing = false ∧
      ((shadowed.searchingAlso [⟨"spare"⟩]).ofFile ⟨"c"⟩).toUniverse = .error e := by
  obtain ⟨e, fails, found⟩ := toUniverse_shadowed_broken
  exact ⟨(ofFile_searchingAlso shadowed [⟨"spare"⟩] ⟨"a"⟩).1 _ toUniverse_shadowed,
    e, fails, found, (ofFile_searchingAlso shadowed [⟨"spare"⟩] ⟨"c"⟩).2 e fails found⟩

end Sources

end TypeDomains
