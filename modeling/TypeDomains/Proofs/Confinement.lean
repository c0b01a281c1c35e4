import TypeDomains.Proofs.Evaluation
import TypeDomains.Proofs.Reachability

/-!
# Confinement

Where no symbolic links stand, a path leads to where its names say, so a path below a directory
leads to a place below that directory (`FileSystem.below_of_within`). The literal of an include
never leads upwards, and so no file is read but the main one and those below its directory and
below the directories searched (`Sources.ofFile_confined`).
-/

namespace TypeDomains

namespace Place

/-- The place is in the directory, or in one below it. -/
def LiesBelow (p d : Place) : Prop := ∃ names, names ≠ [] ∧ p.names = d.names ++ names

theorem LiesBelow.parent {p d : Place} (h : p.LiesBelow d) : d.names <+: p.parent.names := by
  obtain ⟨names, nonempty, hp⟩ := h
  refine ⟨names.dropLast, ?_⟩
  rw [Place.parent, hp, List.dropLast_append_of_ne_nil nonempty]

theorem LiesBelow.of_prefix {p d e : Place} (h : p.LiesBelow d) (hd : e.names <+: d.names) :
    p.LiesBelow e := by
  obtain ⟨names, nonempty, hp⟩ := h
  obtain ⟨more, hmore⟩ := hd
  refine ⟨more ++ names, by simp [nonempty], ?_⟩
  rw [hp, ← hmore, List.append_assoc]

end Place

/-! ## Lookups without links -/

namespace FileSystem

/-- No symbolic link stands anywhere. -/
def Linkless (fs : FileSystem) : Prop := ∀ p target, fs.entry? p ≠ some (.link target)

/-- The directory that the files of a searched directory are looked for in. Where that is empty, it
is the working directory. -/
def Denotes (fs : FileSystem) (dir : Path) (d : Place) : Prop :=
  dir.text = "" ∧ d = fs.here ∨ fs.locate dir = .ok d

variable {fs : FileSystem} {links : Nat} {here place : Place} {segment : String}
  {segments rest : List String} {dir p : Path}

theorem linkless_of_entries (h : ∀ e ∈ fs.entries, ∀ target, e.2 ≠ .link target) :
    fs.Linkless := by
  intro p target
  unfold entry?
  cases hp : fs.entries.lookup p with
  | none =>
    dsimp only
    split <;> simp
  | some e =>
    obtain ⟨before, after, hl, -⟩ := List.lookup_eq_some_iff.1 hp
    have listed : (p, e) ∈ fs.entries := by simp [hl]
    intro link
    exact h _ listed target (Option.some.inj link)

theorem directory_of_walk (h : fs.walk links here (segment :: rest) = .ok place) :
    fs.entry? here = some .directory := by
  rw [walk] at h
  by_cases directory : fs.entry? here = some .directory
  · exact directory
  · simp [directory] at h

theorem walk_cons (plain : fs.Linkless) (segment : String) (rest : List String) :
    fs.walk links here (segment :: rest) =
      fs.walk links here [segment] >>= (fs.walk links · rest) := by
  have nil (p : Place) : fs.walk links p [] = .ok p := by rw [walk]
  rw [walk, walk]
  simp only [nil]
  split
  · rfl
  split
  · rfl
  split
  · rfl
  split
  · rfl
  cases hc : fs.entry? (here.child segment) with
  | none => rfl
  | some e =>
    cases e with
    | link target => exact absurd hc (plain _ _)
    | file _ | directory => rfl

theorem walk_append (plain : fs.Linkless) : fs.walk links here (segments ++ rest) =
    fs.walk links here segments >>= (fs.walk links · rest) := by
  induction segments generalizing here with
  | nil =>
    rw [List.nil_append, walk]
    rfl
  | cons segment segments ih =>
    rw [List.cons_append, walk_cons plain, walk_cons plain segment segments, bind_assoc]
    congr 1
    funext next
    exact ih

theorem walk_append_ok (plain : fs.Linkless) : fs.walk links here (segments ++ rest) = .ok place ↔
    ∃ m, fs.walk links here segments = .ok m ∧ fs.walk links m rest = .ok place := by
  rw [walk_append plain, bind_ok]

/-- A way that never leads upwards leads to where its names say. -/
theorem names_of_walk (plain : fs.Linkless) (down : ".." ∉ segments)
    (h : fs.walk links here segments = .ok place) :
    place.names = here.names ++ segments.filter fun s => s ≠ "" && s ≠ "." := by
  induction segments generalizing here with
  | nil =>
    rw [walk] at h
    cases h
    simp
  | cons segment segments ih =>
    obtain ⟨notAbove, down⟩ := not_or.1 (List.mem_cons.not.1 down)
    have directory := directory_of_walk h
    rw [walk, if_neg (not_not.2 directory)] at h
    by_cases blank : segment = "" ∨ segment = "."
    · rw [if_pos (by simpa using blank)] at h
      rw [ih down h]
      rcases blank with rfl | rfl <;> simp
    · rw [if_neg (by simpa using blank), if_neg (Ne.symm notAbove)] at h
      split at h
      · simp at h
      have next : fs.walk links (here.child segment) segments = .ok place := by
        cases hc : fs.entry? (here.child segment) with
        | none => simp [hc] at h
        | some e =>
          cases e with
          | link target => exact absurd hc (plain _ _)
          | file _ | directory => simpa [hc] using h
      obtain ⟨nonempty, notHere⟩ := not_or.1 blank
      rw [ih down next]
      simp [Place.child, nonempty, notHere]

/-- The path of a place leads to that place only. -/
theorem eq_of_denotes_path (plain : fs.Linkless) {d e : Place} (hd : d.Proper)
    (h : fs.Denotes d.path e) : e = d := by
  have rooted : d.path.isRooted = true := by simp [Path.isRooted, Place.path]
  rcases h with ⟨empty, -⟩ | h
  · simp [Place.path] at empty
  obtain ⟨-, -, h⟩ := locate_ok.1 h
  have down : ".." ∉ d.path.segments := by
    intro above
    have name : ".." ∈ d.path.names := by simpa [Path.names] using above
    rw [hd.names_path] at name
    exact (hd _ name).notAbove rfl
  have names : e.names = (fs.start d.path).names ++ d.path.names := names_of_walk plain down h
  rw [start, if_pos rooted, hd.names_path] at names
  cases e
  cases d
  exact congrArg Place.mk names

end FileSystem

/-! ## Paths below a directory -/

namespace Path

/-- A path that leads from a directory to something below it. -/
structure Descends (p : Path) : Prop where
  unrooted : p.isRooted = false
  down : ".." ∉ p.segments
  names : p.names ≠ []

theorem segments_append (before after : String) :
    (Path.mk (before ++ "/" ++ after)).segments =
      (Path.mk before).segments ++ (Path.mk after).segments := by
  have cut : (before ++ "/" ++ after).toList = before.toList ++ '/' :: after.toList := by simp
  rw [segments, cut, partsAt_append, List.map_append]
  rfl

theorem segments_ne_nil (p : Path) : p.segments ≠ [] := by
  simp [segments, partsAt_ne_nil]

theorem empty_mem_segments {p : Path} (h : p.isRooted = true) : "" ∈ p.segments := by
  unfold isRooted at h
  cases hp : p.text.toList with
  | nil => simp [hp] at h
  | cons c cs =>
    obtain rfl : c = '/' := by simpa [hp] using h
    simp [segments, hp, partsAt]

/-- A path below a directory goes through the segments of the directory, but for an empty one
behind a last slash. -/
theorem segments_within {dir p : Path} (hdir : dir.text ≠ "") (hp : p.isRooted = false) :
    ∃ through last, dir.segments = through ++ last ∧ (last = [] ∨ last = [""]) ∧
      (dir.within p).segments = through ++ p.segments := by
  unfold within
  rw [if_neg (by simp [hp, hdir])]
  split
  case isFalse =>
    exact ⟨dir.segments, [], by simp, .inl rfl, segments_append dir.text p.text⟩
  case isTrue slash =>
    obtain ⟨front, hfront⟩ := List.getLast?_eq_some_iff.1 slash
    have text : dir.text = .ofList front ++ "/" := by
      apply String.toList_inj.1
      simp [hfront]
    refine ⟨(Path.mk (.ofList front)).segments, [""], ?_, .inr rfl, ?_⟩
    · have cut := segments_append (.ofList front) ""
      rwa [String.append_empty, ← text] at cut
    · rw [text]
      exact segments_append (.ofList front) p.text

theorem text_within {dir p : Path} (hdir : dir.text ≠ "") (hp : p.isRooted = false) :
    ∃ more, (dir.within p).text = dir.text ++ more := by
  unfold within
  rw [if_neg (by simp [hp, hdir])]
  split
  · exact ⟨p.text, rfl⟩
  · exact ⟨"/" ++ p.text, by rw [String.append_assoc]⟩

theorem isRooted_within {dir p : Path} (hdir : dir.text ≠ "") (hp : p.isRooted = false) :
    (dir.within p).isRooted = dir.isRooted := by
  obtain ⟨more, htext⟩ := text_within hdir hp
  have nonempty : dir.text.toList ≠ [] := by simpa using hdir
  simp only [isRooted, htext, String.toList_append, List.head?_append_of_ne_nil _ nonempty]

end Path

namespace IncludePath

variable {literal : String} {p : Path}

/-- Every segment of an include is the name of something in a directory. -/
theorem isName_of_relative? (h : relative? literal = some p) :
    ∀ segment ∈ p.segments, IsName segment := by
  unfold relative? at h
  dsimp only at h
  split at h
  case isFalse => simp at h
  case isTrue valid =>
    obtain rfl := Option.some.inj h
    intro segment hsegment
    have unseparated := Path.not_mem_of_mem_segments hsegment
    obtain ⟨part, hpart, rfl⟩ := List.mem_map.1 hsegment
    rw [String.toList_ofList] at hpart
    have allowed := List.all_eq_true.1 valid part hpart
    simp only [isSegment, Bool.and_eq_true, bne_iff_ne, Bool.not_eq_true',
      List.isEmpty_eq_false_iff] at allowed
    have differs (other : String) (hne : part ≠ other.toList) : String.ofList part ≠ other := by
      intro same
      apply hne
      rw [← same, String.toList_ofList]
    exact ⟨differs "" allowed.1.1.1, differs "." allowed.1.2, differs ".." allowed.2, unseparated⟩

/-- The literal of an include leads downwards. -/
theorem descends_of_relative? (h : relative? literal = some p) : p.Descends := by
  have names := isName_of_relative? h
  constructor
  case unrooted =>
    by_contra rooted
    have empty := Path.empty_mem_segments (Bool.eq_true_of_not_eq_false rooted)
    exact (names "" empty).nonempty rfl
  case down =>
    intro above
    exact (names ".." above).notAbove rfl
  case names =>
    obtain ⟨segment, hsegment⟩ := List.exists_mem_of_ne_nil _ p.segments_ne_nil
    have name : segment ∈ p.names := by
      have isName := names segment hsegment
      simp [Path.names, hsegment, isName.nonempty, isName.notHere]
    exact List.ne_nil_of_mem name

end IncludePath

namespace FileSystem

variable {fs : FileSystem} {dir p : Path} {place : Place}

/-- The way to a path below a directory goes through the directory. -/
theorem walk_of_within (plain : fs.Linkless) (hdir : dir.text ≠ "") (hp : p.isRooted = false)
    (h : fs.locate (dir.within p) = .ok place) :
    ∃ d, fs.locate dir = .ok d ∧ fs.walk mostLinks d p.segments = .ok place := by
  obtain ⟨-, zero, h⟩ := locate_ok.1 h
  obtain ⟨through, last, hsegments, hlast, hwithin⟩ := Path.segments_within hdir hp
  obtain ⟨more, htext⟩ := Path.text_within hdir hp
  have start : fs.start (dir.within p) = fs.start dir := by
    simp only [FileSystem.start, Path.isRooted_within hdir hp]
  rw [hwithin, start, walk_append_ok plain] at h
  obtain ⟨d, reached, below⟩ := h
  have directory : fs.entry? d = some .directory := by
    obtain ⟨segment, rest, hp⟩ := List.exists_cons_of_ne_nil p.segments_ne_nil
    exact directory_of_walk (hp ▸ below)
  -- An empty last segment stays where it is, in a directory.
  have stays : fs.walk mostLinks d last = .ok d := by
    rcases hlast with rfl | rfl
    · rw [walk]
    · rw [walk, walk]
      simp [directory]
  refine ⟨d, locate_ok.2 ⟨hdir, ?_, ?_⟩, below⟩
  · intro mem
    exact zero (by simp [htext, mem])
  · rw [hsegments]
    exact (walk_append_ok plain).2 ⟨d, reached, stays⟩

/-- A path below a directory leads below that directory. -/
theorem below_of_within (plain : fs.Linkless) (hp : p.Descends)
    (h : fs.locate (dir.within p) = .ok place) : ∃ d, fs.Denotes dir d ∧ place.LiesBelow d := by
  by_cases hdir : dir.text = ""
  · have same : dir.within p = p := by simp [Path.within, hdir]
    have start : fs.start p = fs.here := by simp [start, hp.unrooted]
    obtain ⟨-, -, h⟩ := locate_ok.1 h
    rw [same, start] at h
    have names : place.names = fs.here.names ++ p.names := names_of_walk plain hp.down h
    exact ⟨fs.here, .inl ⟨hdir, rfl⟩, p.names, hp.names, names⟩
  · obtain ⟨d, located, below⟩ := walk_of_within plain hdir hp.unrooted h
    have names : place.names = d.names ++ p.names := names_of_walk plain hp.down below
    exact ⟨d, .inr located, p.names, hp.names, names⟩

end FileSystem

/-! ## Includes -/

namespace Sources

variable {s : Sources} {seen : List Route} {f : PlacedForm} {fs : List PlacedForm}
  {main p d : Place}

/-- The directories that includes may reach into: the one that holds the main file, and those that
are searched. -/
def IsRoot (s : Sources) (main d : Place) : Prop :=
  d = main.parent ∨ ∃ dir ∈ s.searchDirs, s.files.Denotes dir d

/-- The place lies below one of the roots. -/
def Confines (s : Sources) (main p : Place) : Prop :=
  ∃ root, s.IsRoot main root ∧ p.LiesBelow root

/-- The file of the form is in one of the roots or in a directory below one. -/
def Holds (s : Sources) (main : Place) (f : PlacedForm) : Prop :=
  ∃ d : Place, d.Proper ∧ f.base = d.path ∧ ∃ root, s.IsRoot main root ∧ root.names <+: d.names

theorem locate_of_find {base : Path} {literal : String} {l : Location}
    (h : s.find base literal l = .ok p) : ∃ relative, IncludePath.relative? literal = some relative ∧
      ∃ dir ∈ base :: s.searchDirs, s.files.locate (dir.within relative) = .ok p := by
  unfold find candidates at h
  cases hr : IncludePath.relative? literal with
  | none => simp [hr] at h
  | some relative =>
    simp only [hr, Option.isNone_some, Bool.false_eq_true, ↓reduceIte] at h
    split at h
    case h_1 place found =>
      obtain rfl := Except.ok.inj h
      obtain ⟨_, hmem, hfile⟩ := List.exists_of_findSome?_eq_some found
      obtain ⟨dir, hdir, rfl⟩ := List.mem_map.1 hmem
      exact ⟨relative, rfl, dir, hdir, FileSystem.locate_of_file? hfile⟩
    case h_2 => simp at h

/-- One include, in a file that is below a root, leads below a root. -/
theorem Includes.confined (plain : s.files.Linkless) (h : s.Includes f p) (hf : s.Holds main f) :
    s.Confines main p := by
  obtain ⟨literal, l, -, hfind⟩ := h
  obtain ⟨relative, hrelative, dir, hdir, located⟩ := locate_of_find hfind
  obtain ⟨d, denotes, below⟩ :=
    FileSystem.below_of_within plain (IncludePath.descends_of_relative? hrelative) located
  rcases List.mem_cons.1 hdir with rfl | hdir
  · obtain ⟨e, proper, hbase, root, hroot, inside⟩ := hf
    rw [hbase] at denotes
    obtain rfl := FileSystem.eq_of_denotes_path plain proper denotes
    exact ⟨root, hroot, below.of_prefix inside⟩
  · exact ⟨d, .inr ⟨dir, hdir, denotes⟩, below⟩

theorem holds_of_forms {gs : List PlacedForm} {l : Location} (h : s.forms p l = .ok gs)
    (proper : p.Proper) (inside : ∃ root, s.IsRoot main root ∧ root.names <+: p.parent.names) :
    ∀ g ∈ gs, s.Holds main g := by
  obtain ⟨_, values, -, -, rfl⟩ := forms_ok.1 h
  intro g hg
  obtain ⟨value, -, rfl⟩ := List.mem_map.1 hg
  exact ⟨p.parent, proper.parent, rfl, inside⟩

/-- However many includes lie between, what is reached is below a root. -/
theorem Reaches.confined (plain : s.files.Linkless) (h : s.Reaches seen fs p)
    (hfs : ∀ f ∈ fs, s.Holds main f) : p.Proper ∧ s.Confines main p := by
  induction h with
  | directly hf hp _ => exact ⟨hp.proper, hp.confined plain (hfs _ hf)⟩
  | through _ hforms hg hq _ ih =>
    obtain ⟨proper, root, hroot, below⟩ := ih
    have holds := holds_of_forms hforms proper ⟨root, hroot, below.parent⟩
    exact ⟨hq.proper, hq.confined plain (holds _ hg)⟩

/-- **Includes stay below the roots.** Where no symbolic links stand, whatever the files say and
however the expansion ends, each file it reads is the main file, or lies below the directory that
holds the main file, or below one of the directories searched. -/
theorem ofFile_confined (s : Sources) (plain : s.files.Linkless) (main : Path) :
    ∀ p ∈ (s.ofFile main).reads, ∃ m, s.files.locate main = .ok m ∧
      (p = m ∨ p.LiesBelow m.parent ∨
        ∃ dir ∈ s.searchDirs, ∃ d, s.files.Denotes dir d ∧ p.LiesBelow d) := by
  cases located : s.files.locate main with
  | error reason => simp [ofFile, located, Expansion.ask, Expansion.failed]
  | ok m =>
    intro p hp
    refine ⟨m, rfl, ?_⟩
    simp only [ofFile, located, Expansion.ask, Expansion.read] at hp
    rcases List.mem_cons.1 hp with rfl | hp
    · exact .inl rfl
    cases hforms : s.forms m (Location.ofFile main.text) with
    | error e => simp [hforms, Expansion.failed] at hp
    | ok gs =>
      rw [hforms] at hp
      have proper := FileSystem.proper_of_locate located
      have holds : ∀ g ∈ gs, s.Holds m g :=
        holds_of_forms hforms proper ⟨m.parent, .inl rfl, List.prefix_rfl⟩
      have reached := reaches_of_mem_reads s [m.route] gs p hp
      obtain ⟨-, root, rfl | ⟨dir, hdir, denotes⟩, below⟩ := reached.confined plain holds
      · exact .inr (.inl below)
      · exact .inr (.inr ⟨dir, hdir, root, denotes, below⟩)

/-- An include that leads to a directory that is searched, on a way that first leads upwards. -/
def besides : Sources :=
  ⟨⟨[(⟨["home", "main"]⟩, .file (.text "(include_file \"/b\")")),
    (⟨["lib", "b"]⟩, .file (.text "// nothing"))], ⟨"/home"⟩⟩, [⟨"../lib/"⟩]⟩

theorem find_besides (l : Location) : besides.find ⟨"/home"⟩ "/b" l = .ok ⟨["lib", "b"]⟩ := by
  rw [Evaluation.find_eq]
  rfl

theorem reads_besides : (besides.ofFile ⟨"main"⟩).reads = [⟨["home", "main"]⟩, ⟨["lib", "b"]⟩] := by
  rw [Evaluation.ofFile_eq]
  decide +kernel

theorem ofFile_confined_besides : besides.files.Linkless ∧
    (besides.ofFile ⟨"main"⟩).reads = [⟨["home", "main"]⟩, ⟨["lib", "b"]⟩] ∧
    ∀ p ∈ (besides.ofFile ⟨"main"⟩).reads, ∃ m, besides.files.locate ⟨"main"⟩ = .ok m ∧
      (p = m ∨ p.LiesBelow m.parent ∨
        ∃ dir ∈ besides.searchDirs, ∃ d, besides.files.Denotes dir d ∧ p.LiesBelow d) := by
  have plain : besides.files.Linkless := by
    apply FileSystem.linkless_of_entries
    simp [besides]
  exact ⟨plain, reads_besides, ofFile_confined besides plain ⟨"main"⟩⟩

end Sources

end TypeDomains
