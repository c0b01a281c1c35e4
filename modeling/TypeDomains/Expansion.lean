import TypeDomains.Files.IncludePath
import TypeDomains.Form
import TypeDomains.SExpr.Reader

/-!
# Expanding includes

The statements of a source with those of the files that it includes, each in the place of the form
that asks for it. A file counts once: where it is asked for again, it adds nothing. The expansion
ends because each file that it reads is one that it had not seen.
-/

namespace TypeDomains

/-- The files at hand, and the directories searched after the includer's own. -/
structure Sources where
  files : FileSystem
  searchDirs : List Path

/-- The outcome of an expansion: its statements or the first error, the routes seen by then, the
paths that were looked for and the files that were read. -/
structure Expansion where
  statements : Except SourceError (List Statement)
  seen : List Route
  asked : List Path
  reads : List Place

namespace Expansion

def done (seen : List Route) : Expansion := ⟨.ok [], seen, [], []⟩

def failed (e : SourceError) (seen : List Route) : Expansion := ⟨.error e, seen, [], []⟩

def prepend (x : Expansion) (s : Statement) : Expansion :=
  { x with statements := x.statements.map (s :: ·) }

def ask (ps : List Path) (x : Expansion) : Expansion := { x with asked := ps ++ x.asked }

def read (p : Place) (x : Expansion) : Expansion := { x with reads := p :: x.reads }

def toUniverse (x : Expansion) : Except SourceError Universe := x.statements.map .mk

end Expansion

/-- A form that is still to be expanded, and the directory that its file lies in. -/
structure PlacedForm where
  base : Path
  form : SExpr

namespace Sources

/-- Where an include is looked for, in order. -/
def candidates (s : Sources) (base : Path) (literal : String) : List Path :=
  match IncludePath.relative? literal with
  | some p => (base :: s.searchDirs).map (·.within p)
  | none => []

/-- The file that an include in the directory `base` means: the first candidate that is one. -/
def find (s : Sources) (base : Path) (literal : String) (l : Location) :
    Except SourceError Place :=
  if (IncludePath.relative? literal).isNone then .error ⟨.includeRefused literal, l⟩
  else
    match (s.candidates base literal).findSome? s.files.file? with
    | some place => .ok place
    | none => .error ⟨.includeMissing literal (s.candidates base literal), l⟩

/-- The forms of the file at `place`, which `l` asks for. -/
def forms (s : Sources) (place : Place) (l : Location) : Except SourceError (List PlacedForm) :=
  match s.files.read place with
  | .error reason => .error ⟨.unreadable place.path reason, l⟩
  | .ok text =>
    match SExpr.ofText (some place.path.text) text with
    | .error e => .error (TextError.toSource e)
    | .ok values => .ok (values.map (⟨place.parent.path, ·⟩))

/-- How many files are left to see. -/
def unseen (s : Sources) (seen : List Route) : Nat :=
  s.files.entries.countP fun e => !seen.contains e.1.route

theorem mem_entries_of_file? {fs : FileSystem} {p : Path} {place : Place}
    (h : fs.file? p = some place) : ∃ content, (place, Entry.file content) ∈ fs.entries := by
  simp only [FileSystem.file?] at h
  split at h
  · simp at h
  split at h
  · simp at h
  rename_i q _
  split at h
  · rename_i content hc
    obtain rfl := Option.some.inj h
    refine ⟨content, ?_⟩
    simp only [FileSystem.entry?] at hc
    split at hc
    · rename_i e he
      obtain rfl := Option.some.inj hc
      obtain ⟨before, after, hl, -⟩ := List.lookup_eq_some_iff.1 he
      simp [hl]
    · split at hc <;> simp at hc
  · simp at h

theorem exists_file_of_find {s : Sources} {base : Path} {literal : String} {l : Location}
    {place : Place} (h : s.find base literal l = .ok place) :
    ∃ p, s.files.file? p = some place := by
  unfold find at h
  split at h
  · simp at h
  split at h
  · rename_i q hq
    obtain rfl := Except.ok.inj h
    obtain ⟨_, p, _, _, hp, _⟩ := List.findSome?_eq_some_iff.1 hq
    exact ⟨p, hp⟩
  · simp at h

theorem unseen_lt {s : Sources} {seen : List Route} {place : Place} {e : Entry}
    (he : (place, e) ∈ s.files.entries) (hs : ¬seen.contains place.route) :
    s.unseen (place.route :: seen) < s.unseen seen := by
  obtain ⟨before, after, hl⟩ := List.append_of_mem he
  have mono (l : List (Place × Entry)) :
      l.countP (fun x => !(place.route :: seen).contains x.1.route) ≤
        l.countP fun x => !seen.contains x.1.route :=
    List.countP_mono_left fun x _ hx => by simp_all
  have old : (!(place.route :: seen).contains place.route) = false := by simp
  have new : (!seen.contains place.route) = true := by simpa using hs
  have := mono before
  have := mono after
  simp only [unseen, hl, List.countP_append, List.countP_cons, old, new, Bool.false_eq_true,
    ↓reduceIte]
  omega

/-- What a form comes to: a statement, a file that is new, or nothing. -/
inductive Step where
  | statement (x : Statement)
  | file (place : Place) (l : Location)
  | nothing
  deriving DecidableEq, Repr

def step (s : Sources) (seen : List Route) (f : PlacedForm) : Except SourceError Step := do
  match ← Form.ofSExpr f.form with
  | .statement x => return .statement x
  | .inclusion literal l =>
    let place ← s.find f.base literal l
    return if seen.contains place.route then .nothing else .file place l

/-- The paths that a form makes one look for. -/
def askedBy (s : Sources) (f : PlacedForm) : List Path :=
  match Form.ofSExpr f.form with
  | .ok (.inclusion literal _) => s.candidates f.base literal
  | _ => []

theorem unseen_lt_of_step {s : Sources} {seen : List Route} {f : PlacedForm} {place : Place}
    {l : Location} (h : s.step seen f = .ok (.file place l)) :
    s.unseen (place.route :: seen) < s.unseen seen := by
  unfold step at h
  cases hf : Form.ofSExpr f.form with
  | error e => simp [hf, bind, Except.bind] at h
  | ok form =>
    cases form with
    | statement x => simp [hf, bind, Except.bind, pure, Except.pure] at h
    | inclusion literal m =>
      cases hp : s.find f.base literal m with
      | error e => simp [hf, hp, bind, Except.bind] at h
      | ok found =>
        simp only [hf, hp, bind, Except.bind, pure, Except.pure, Except.ok.injEq] at h
        split at h
        · simp at h
        · rename_i hs
          obtain ⟨rfl, -⟩ := Step.file.inj h
          obtain ⟨p, hp⟩ := exists_file_of_find hp
          obtain ⟨content, he⟩ := mem_entries_of_file? hp
          exact unseen_lt he hs

/-- Expands the forms that remain, in order. -/
def expand (s : Sources) (seen : List Route) : List PlacedForm → Expansion
  | [] => .done seen
  | f :: fs =>
    .ask (s.askedBy f) <|
      match _ : s.step seen f with
      | .error e => .failed e seen
      | .ok (.statement x) => (expand s seen fs).prepend x
      | .ok .nothing => expand s seen fs
      | .ok (.file place l) =>
        .read place <|
          match s.forms place l with
          | .error e => .failed e (place.route :: seen)
          | .ok included => expand s (place.route :: seen) (included ++ fs)
termination_by fs => (s.unseen seen, fs.length)
decreasing_by
  · simp [Prod.lex_def]
  · simp [Prod.lex_def]
  · exact Prod.Lex.left _ _ (unseen_lt_of_step ‹_›)

@[simp]
theorem expand_nil (s : Sources) (seen : List Route) : s.expand seen [] = .done seen := by
  rw [expand]

theorem expand_cons (s : Sources) (seen : List Route) (f : PlacedForm) (fs : List PlacedForm) :
    s.expand seen (f :: fs) =
      .ask (s.askedBy f)
        (match s.step seen f with
        | .error e => .failed e seen
        | .ok (.statement x) => (s.expand seen fs).prepend x
        | .ok .nothing => s.expand seen fs
        | .ok (.file place l) =>
          .read place
            (match s.forms place l with
            | .error e => .failed e (place.route :: seen)
            | .ok included => s.expand (place.route :: seen) (included ++ fs))) := by
  rw [expand]
  split <;> simp_all

/-- Expands a text that lies in the directory `base`. -/
def ofText (s : Sources) (seen : List Route) (base : Path) (file : Option String)
    (text : String) : Expansion :=
  match SExpr.ofText file text with
  | .error e => .failed (TextError.toSource e) seen
  | .ok values => s.expand seen (values.map (⟨base, ·⟩))

/-- Expands a text that no file holds; it lies in the working directory. -/
def ofString (s : Sources) (text : String) : Expansion := s.ofText [] ⟨"."⟩ none text

/-- Expands the file that `main` leads to. -/
def ofFile (s : Sources) (main : Path) : Expansion :=
  let l := Location.ofFile main.text
  .ask [main] <|
    match s.files.locate main with
    | .error reason => .failed ⟨.unreadable main reason, l⟩ []
    | .ok place =>
      .read place <|
        match s.forms place l with
        | .error e => .failed e [place.route]
        | .ok forms => s.expand [place.route] forms

end Sources

end TypeDomains
