import TypeDomains.Expansion
import TypeDomains.Proofs.Outcome

/-!
# Places

The places that a lookup leads to are spelled by names that a path keeps (`Place.Proper`), so their
paths tell them apart (`Place.Proper.path_injective`).
-/

namespace TypeDomains

/-! ## Names -/

/-- Something in a directory can have this name, and a path that says so means it. -/
structure IsName (name : String) : Prop where
  nonempty : name ≠ ""
  notHere : name ≠ "."
  notAbove : name ≠ ".."
  unseparated : '/' ∉ name.toList

/-- The place is reached by names alone. -/
def Place.Proper (p : Place) : Prop := ∀ name ∈ p.names, IsName name

theorem Path.not_mem_of_mem_segments {p : Path} {segment : String} (h : segment ∈ p.segments) :
    '/' ∉ segment.toList := by
  obtain ⟨part, hpart, rfl⟩ := List.mem_map.1 h
  rw [String.toList_ofList]
  exact not_mem_of_mem_partsAt hpart

theorem Path.isName_of_mem_names {p : Path} {name : String} (h : name ∈ p.names)
    (below : name ≠ "..") : IsName name := by
  simp only [names, List.mem_filter, Bool.and_eq_true, decide_eq_true_eq] at h
  exact ⟨h.2.1, h.2.2, below, not_mem_of_mem_segments h.1⟩

namespace Place

theorem proper_root : root.Proper := by simp [Proper, root]

theorem Proper.parent {p : Place} (h : p.Proper) : p.parent.Proper :=
  fun name hn => h name (List.dropLast_subset _ hn)

theorem Proper.child {p : Place} (h : p.Proper) {name : String} (hn : IsName name) :
    (p.child name).Proper := by
  simp only [Proper, Place.child, List.forall_mem_append, List.forall_mem_singleton]
  exact ⟨h, hn⟩

theorem Proper.enter {p : Place} (h : p.Proper) {name : String} (hn : name ≠ ".." → IsName name) :
    (p.enter name).Proper := by
  unfold Place.enter
  split
  · exact h.parent
  · exact h.child (hn ‹_›)

theorem Proper.names_path {p : Place} (h : p.Proper) : p.path.names = p.names := by
  have slashes : ∀ part ∈ p.names.map String.toList, '/' ∉ part := by
    intro part hp
    obtain ⟨name, hn, rfl⟩ := List.mem_map.1 hp
    exact (h name hn).unseparated
  have kept : p.names.filter (fun s => s ≠ "" && s ≠ ".") = p.names :=
    List.filter_eq_self.2 fun name hn => by simp [(h name hn).nonempty, (h name hn).notHere]
  simp only [Path.names, Path.segments, path, String.toList_append, String.toList_intercalate]
  by_cases hnil : p.names = []
  · rw [hnil]
    decide
  · have := partsAt_intercalate (by simpa using hnil) slashes
    rw [show "/".toList = ['/'] from rfl, List.singleton_append, partsAt, if_pos rfl, this]
    simpa using kept

theorem Proper.path_injective {p q : Place} (hp : p.Proper) (hq : q.Proper)
    (h : p.path.text = q.path.text) : p = q := by
  have same : p.path = q.path := congrArg Path.mk h
  have := hp.names_path
  rw [same, hq.names_path] at this
  cases p
  cases q
  exact congrArg Place.mk this.symm

end Place

/-! ## Lookups -/

namespace FileSystem

variable {fs : FileSystem} {p : Path} {place : Place}

theorem proper_here (fs : FileSystem) : fs.here.Proper := by
  have along (names : List String) (hnames : ∀ n ∈ names, n ≠ ".." → IsName n) (p : Place)
      (hp : p.Proper) : (names.foldl Place.enter p).Proper := by
    induction names generalizing p with
    | nil => exact hp
    | cons name names ih =>
      obtain ⟨hname, hnames⟩ := List.forall_mem_cons.1 hnames
      exact ih hnames _ (hp.enter hname)
  exact along _ (fun n hn => Path.isName_of_mem_names hn) _ Place.proper_root

theorem proper_start (fs : FileSystem) (p : Path) : (fs.start p).Proper := by
  unfold start
  split
  · exact Place.proper_root
  · exact proper_here fs

theorem proper_of_walk {links : Nat} {here : Place} {segments : List String}
    (hhere : here.Proper) (hsegments : ∀ s ∈ segments, '/' ∉ s.toList)
    (h : fs.walk links here segments = .ok place) : place.Proper := by
  fun_induction walk fs links here segments with
  | case1 =>
    cases h
    exact hhere
  | case2 | case5 | case6 | case7 => simp at h
  | case3 links here segment rest _ _ ih =>
    exact ih hhere (List.forall_mem_cons.1 hsegments).2 h
  | case4 links here rest _ _ ih =>
    exact ih hhere.parent (List.forall_mem_cons.1 hsegments).2 h
  | case8 here segment rest _ _ _ _ target _ links ih =>
    have hrest := (List.forall_mem_cons.1 hsegments).2
    refine ih ?_ ?_ h
    · split
      · exact Place.proper_root
      · exact hhere
    · exact List.forall_mem_append.2 ⟨fun s => Path.not_mem_of_mem_segments, hrest⟩
  | case9 links here segment rest _ hblank habove _ _ _ _ ih =>
    obtain ⟨hsegment, hrest⟩ := List.forall_mem_cons.1 hsegments
    simp only [Bool.or_eq_true, decide_eq_true_eq, not_or] at hblank
    exact ih (hhere.child ⟨hblank.1, hblank.2, habove, hsegment⟩) hrest h

theorem locate_ok : fs.locate p = .ok place ↔ p.text ≠ "" ∧ '\x00' ∉ p.text.toList ∧
    fs.walk mostLinks (fs.start p) p.segments = .ok place := by
  unfold locate
  by_cases empty : p.text = ""
  · simp [empty]
  by_cases zero : '\x00' ∈ p.text.toList
  · simp [empty, zero]
  · simp [empty, zero]

theorem locate_of_file? (h : fs.file? p = some place) : fs.locate p = .ok place := by
  unfold file? at h
  split at h
  · simp at h
  cases hp : fs.locate p with
  | error e => simp [hp] at h
  | ok q =>
    simp only [hp] at h
    split at h
    · rw [Option.some.inj h]
    · simp at h

theorem proper_of_locate (h : fs.locate p = .ok place) : place.Proper := by
  obtain ⟨-, -, walked⟩ := locate_ok.1 h
  exact proper_of_walk (proper_start fs p) (fun s => Path.not_mem_of_mem_segments) walked

theorem proper_of_file? (h : fs.file? p = some place) : place.Proper :=
  proper_of_locate (locate_of_file? h)

end FileSystem

theorem Sources.proper_of_find {s : Sources} {base : Path} {literal : String} {l : Location}
    {place : Place} (h : s.find base literal l = .ok place) : place.Proper := by
  obtain ⟨p, hp⟩ := exists_file_of_find h
  exact FileSystem.proper_of_file? hp

end TypeDomains
