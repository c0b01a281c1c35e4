import TypeDomains.Expansion

/-!
# Evaluation

A walk through a file system recurses on the links that are left and then on the segments, an
expansion on the files that are left and then on the forms. Recursion on such pairs is not computed
by reduction. Here both are nested recursions on a number and on a list, equal to the others on
every input (`walk_eq`, `expand_eq`), with what stands between them said again in their terms, so
that runs on given files can be evaluated (`ofString_eq`, `ofFile_eq`).
-/

namespace TypeDomains.Evaluation

/-! ## Walks -/

/-- Goes on as far as the next link, where `jump` takes over. -/
def stride (fs : FileSystem) (jump : Place → List String → Except Unreadable Place)
    (here : Place) : List String → Except Unreadable Place
  | [] => .ok here
  | segment :: rest =>
    if fs.entry? here ≠ some .directory then .error .notDirectory
    else if segment = "" || segment = "." then stride fs jump here rest
    else if segment = ".." then stride fs jump here.parent rest
    else if segment.utf8ByteSize > FileSystem.longestName then .error .nameTooLong
    else
      match fs.entry? (here.child segment) with
      | none => .error .notFound
      | some (.link target) =>
        jump (if target.isRooted then .root else here) (target.segments ++ rest)
      | some _ => stride fs jump (here.child segment) rest

/-- Goes on from link to link. -/
def walk (fs : FileSystem) : Nat → Place → List String → Except Unreadable Place
  | 0 => stride fs fun _ _ => .error .tooManyLinks
  | fewer + 1 => stride fs (walk fs fewer)

theorem stride_eq {fs : FileSystem} {jump : Place → List String → Except Unreadable Place}
    {links : Nat} (here : Place) (segments : List String)
    (h : ∀ start ahead, jump start ahead = match links with
      | 0 => .error .tooManyLinks
      | fewer + 1 => fs.walk fewer start ahead) :
    stride fs jump here segments = fs.walk links here segments := by
  induction segments generalizing here with
  | nil => rw [stride, FileSystem.walk]
  | cons segment rest ih =>
    rw [stride, FileSystem.walk]
    split
    · rfl
    split
    · exact ih here
    split
    · exact ih here.parent
    split
    · rfl
    cases hc : fs.entry? (here.child segment) with
    | none => rfl
    | some e =>
      cases e with
      | link target => exact h _ _
      | file _ | directory => exact ih (here.child segment)

theorem walk_eq (fs : FileSystem) (links : Nat) (here : Place) (segments : List String) :
    fs.walk links here segments = walk fs links here segments := by
  induction links generalizing here segments with
  | zero => exact (stride_eq here segments fun _ _ => rfl).symm
  | succ fewer ih => exact (stride_eq here segments fun start ahead => (ih start ahead).symm).symm

def locate (fs : FileSystem) (p : Path) : Except Unreadable Place :=
  if p.text.isEmpty then .error .notFound
  else if p.text.toList.contains '\x00' then .error .zeroInPath
  else walk fs FileSystem.mostLinks (fs.start p) p.segments

theorem locate_eq : FileSystem.locate = locate := by
  funext fs p
  rw [FileSystem.locate, walk_eq]
  rfl

def file? (fs : FileSystem) (p : Path) : Option Place :=
  if p.text.utf8ByteSize > FileSystem.longestPath then none
  else
    match locate fs p with
    | .error _ => none
    | .ok place =>
      match fs.entry? place with
      | some (.file _) => some place
      | _ => none

theorem file?_eq : FileSystem.file? = file? := by
  funext fs p
  rw [FileSystem.file?, locate_eq]
  rfl

/-! ## Expansions -/

def find (s : Sources) (base : Path) (literal : String) (l : Location) :
    Except SourceError Place :=
  if (IncludePath.relative? literal).isNone then .error ⟨.includeRefused literal, l⟩
  else
    match (s.candidates base literal).findSome? (file? s.files) with
    | some place => .ok place
    | none => .error ⟨.includeMissing literal (s.candidates base literal), l⟩

theorem find_eq : Sources.find = find := by
  funext s base literal l
  rw [Sources.find, file?_eq]
  rfl

def step (s : Sources) (seen : List Route) (f : PlacedForm) : Except SourceError Sources.Step := do
  match ← Form.ofSExpr f.form with
  | .statement x => return .statement x
  | .inclusion literal l =>
    let place ← find s f.base literal l
    return if seen.contains place.route then .nothing else .file place l

theorem step_eq : Sources.step = step := by
  funext s seen f
  rw [Sources.step, find_eq]
  rfl

/-- Goes on as far as the next new file, where `enter` takes over. -/
def along (s : Sources) (enter : List Route → List PlacedForm → Expansion) (seen : List Route) :
    List PlacedForm → Expansion
  | [] => .done seen
  | f :: fs =>
    .ask (s.askedBy f) <|
      match step s seen f with
      | .error e => .failed e seen
      | .ok (.statement x) => (along s enter seen fs).prepend x
      | .ok .nothing => along s enter seen fs
      | .ok (.file place l) =>
        .read place <|
          match s.forms place l with
          | .error e => .failed e (place.route :: seen)
          | .ok included => enter (place.route :: seen) (included ++ fs)

/-- Goes on from file to file, of which no more than so many can be new. -/
def expand (s : Sources) : Nat → List Route → List PlacedForm → Expansion
  | 0 => along s fun seen _ => .done seen
  | fewer + 1 => along s (expand s fewer)

theorem along_eq {s : Sources} {enter : List Route → List PlacedForm → Expansion}
    {seen : List Route} (fs : List PlacedForm)
    (h : ∀ later gs, s.unseen later < s.unseen seen → enter later gs = s.expand later gs) :
    along s enter seen fs = s.expand seen fs := by
  induction fs with
  | nil => rw [along, Sources.expand_nil]
  | cons f fs ih =>
    rw [along, Sources.expand_cons, step_eq, ih]
    congr 1
    cases hs : step s seen f with
    | error e => rfl
    | ok k =>
      cases k with
      | statement x => rfl
      | nothing => rfl
      | file place l =>
        have fewer := Sources.unseen_lt_of_step (step_eq ▸ hs)
        dsimp only
        cases hg : s.forms place l with
        | error e => rfl
        | ok included => exact congrArg (Expansion.read place) (h _ _ fewer)

theorem expand_of_unseen_le {s : Sources} {seen : List Route} {n : Nat} (fs : List PlacedForm)
    (h : s.unseen seen ≤ n) : expand s n seen fs = s.expand seen fs := by
  induction n generalizing seen fs with
  | zero => exact along_eq fs fun later gs fewer => by omega
  | succ n ih => exact along_eq fs fun later gs fewer => ih gs (by omega)

theorem expand_eq (s : Sources) (seen : List Route) (fs : List PlacedForm) :
    s.expand seen fs = expand s s.files.entries.length seen fs :=
  (expand_of_unseen_le fs List.countP_le_length).symm

def ofString (s : Sources) (text : String) : Expansion :=
  match SExpr.ofText none text with
  | .error e => .failed (TextError.toSource e) []
  | .ok values => expand s s.files.entries.length [] (values.map (⟨⟨"."⟩, ·⟩))

theorem ofString_eq : Sources.ofString = ofString := by
  funext s text
  simp only [Sources.ofString, Sources.ofText, expand_eq]
  rfl

def ofFile (s : Sources) (main : Path) : Expansion :=
  let l := Location.ofFile main.text
  .ask [main] <|
    match locate s.files main with
    | .error reason => .failed ⟨.unreadable main reason, l⟩ []
    | .ok place =>
      .read place <|
        match s.forms place l with
        | .error e => .failed e [place.route]
        | .ok forms => expand s s.files.entries.length [place.route] forms

theorem ofFile_eq : Sources.ofFile = ofFile := by
  funext s main
  simp only [Sources.ofFile, locate_eq, expand_eq]
  rfl

end TypeDomains.Evaluation
