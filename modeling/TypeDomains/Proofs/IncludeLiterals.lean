import Mathlib.Computability.RegularExpressions
import TypeDomains.Proofs.Confinement

/-!
# The literals of includes

A literal is refused unless it spells names behind slashes (`IncludePath.relative?_iff`), which is
what a regular expression and a look at its segments come to (`IncludePath.isSome_relative?_iff`).
What it spells is looked for in one directory after the other (`Sources.find_spelled`).
-/

namespace TypeDomains

theorem Path.joined_segments (p : Path) : "/".intercalate p.segments = p.text := by
  apply String.toList_inj.1
  rw [String.toList_intercalate, segments, List.map_map]
  simp [Function.comp_def, intercalate_partsAt]

/-! ## Words of a pattern -/

namespace IncludePath

/-- The characters of a segment. -/
def alphabet : List Char :=
  "ABCDEFGHIJKLMNOPQRSTUVWXYZabcdefghijklmnopqrstuvwxyz0123456789_.-".toList

theorem allowed_iff {c : Char} : allowed c ↔ c ∈ alphabet := by
  constructor
  · intro h
    have ascii : c.toNat < 128 := by
      simp only [allowed, Bool.or_eq_true, decide_eq_true_eq, Name.isAlphanum_iff,
        Name.isAlpha_iff, Char.isDigit_iff_toNat, Char.reduceToNat, or_assoc] at h
      rcases h with upper | lower | digit | rfl | rfl | rfl
      · omega
      · omega
      · omega
      all_goals decide
    have listed : ∀ n < 128, allowed (.ofNat n) → .ofNat n ∈ alphabet := by decide +kernel
    have mem := listed c.toNat ascii
    rw [Char.ofNat_toNat] at mem
    exact mem h
  · have all : alphabet.all allowed := by decide
    exact List.all_eq_true.1 all c

/-- Any one of the characters. -/
def oneOf (cs : List Char) : RegularExpression Char := (cs.map .char).sum

/-- One character of a segment, or several. -/
def word : RegularExpression Char := oneOf alphabet * (oneOf alphabet).star

/-- The pattern `^/?[A-Za-z0-9_.-]+(/[A-Za-z0-9_.-]+)*$`. -/
def pattern : RegularExpression Char :=
  (1 + .char '/') * (word * (.char '/' * word).star)

theorem mem_oneOf {cs w : List Char} : w ∈ (oneOf cs).matches' ↔ ∃ c ∈ cs, w = [c] := by
  induction cs with
  | nil => simp [oneOf, Language.notMem_zero]
  | cons c cs ih =>
    have rest : w ∈ ((cs.map RegularExpression.char).sum).matches' ↔ ∃ c ∈ cs, w = [c] := ih
    have first : w ∈ ({[c]} : Language Char) ↔ w = [c] := Iff.rfl
    rw [oneOf, List.map_cons, List.sum_cons, RegularExpression.matches'_add, Language.mem_add,
      RegularExpression.matches'_char, rest, first]
    simp

theorem mem_oneOf_star {cs w : List Char} :
    w ∈ ((oneOf cs).star).matches' ↔ ∀ c ∈ w, c ∈ cs := by
  rw [RegularExpression.matches'_star, Language.mem_kstar]
  constructor
  · rintro ⟨parts, rfl, hparts⟩ c hc
    obtain ⟨part, hpart, hc⟩ := List.mem_flatten.1 hc
    obtain ⟨d, hd, rfl⟩ := mem_oneOf.1 (hparts part hpart)
    rwa [List.mem_singleton.1 hc]
  · intro h
    refine ⟨w.map ([·]), (List.flatMap_singleton' w).symm, List.forall_mem_map.2 fun c hc => ?_⟩
    exact mem_oneOf.2 ⟨c, h c hc, rfl⟩

theorem mem_word {w : List Char} : w ∈ word.matches' ↔ w ≠ [] ∧ ∀ c ∈ w, c ∈ alphabet := by
  rw [word, RegularExpression.matches'_mul, Language.mem_mul]
  constructor
  · rintro ⟨_, first, rest, hrest, rfl⟩
    obtain ⟨c, hc, rfl⟩ := mem_oneOf.1 first
    exact ⟨by simp, List.forall_mem_cons.2 ⟨hc, mem_oneOf_star.1 hrest⟩⟩
  · rintro ⟨nonempty, h⟩
    obtain ⟨c, rest, rfl⟩ := List.exists_cons_of_ne_nil nonempty
    obtain ⟨hc, hrest⟩ := List.forall_mem_cons.1 h
    exact ⟨[c], mem_oneOf.2 ⟨c, hc, rfl⟩, rest, mem_oneOf_star.2 hrest, rfl⟩

theorem mem_slash_word {w : List Char} : w ∈ (.char '/' * word : RegularExpression Char).matches' ↔
    w.tail ∈ word.matches' ∧ '/' :: w.tail = w := by
  rw [RegularExpression.matches'_mul, Language.mem_mul, RegularExpression.matches'_char]
  constructor
  · rintro ⟨_, rfl, part, hpart, rfl⟩
    exact ⟨hpart, rfl⟩
  · rintro ⟨hpart, hw⟩
    exact ⟨['/'], rfl, w.tail, hpart, hw⟩

theorem mem_words {w : List Char} : w ∈ (word * (.char '/' * word).star).matches' ↔
    ∃ parts, parts ≠ [] ∧ (∀ part ∈ parts, part ∈ word.matches') ∧
      w = ['/'].intercalate parts := by
  rw [RegularExpression.matches'_mul, Language.mem_mul, RegularExpression.matches'_star]
  constructor
  · rintro ⟨part, hpart, rest, hrest, rfl⟩
    obtain ⟨slashed, rfl, hslashed⟩ := Language.mem_kstar.1 hrest
    have cut (v : List Char) (hv : v ∈ slashed) := mem_slash_word.1 (hslashed v hv)
    have behind : (slashed.map List.tail).map ('/' :: ·) = slashed := by
      rw [List.map_map]
      exact (List.map_congr_left fun v hv => (cut v hv).2).trans (List.map_id slashed)
    refine ⟨part :: slashed.map List.tail, by simp, List.forall_mem_cons.2 ⟨hpart, ?_⟩, ?_⟩
    · exact List.forall_mem_map.2 fun v hv => (cut v hv).1
    · rw [intercalate_eq_flatten, behind]
  · rintro ⟨parts, nonempty, hparts, rfl⟩
    obtain ⟨part, parts, rfl⟩ := List.exists_cons_of_ne_nil nonempty
    obtain ⟨hpart, hparts⟩ := List.forall_mem_cons.1 hparts
    refine ⟨part, hpart, _, Language.join_mem_kstar ?_,
      (intercalate_eq_flatten '/' part parts).symm⟩
    exact List.forall_mem_map.2 fun part hpart => mem_slash_word.2 ⟨hparts part hpart, rfl⟩

theorem slash_notMem_of_mem_word {w : List Char} (h : w ∈ word.matches') : '/' ∉ w := by
  intro slash
  have listed := (mem_word.1 h).2 '/' slash
  revert listed
  decide

/-- The text is a row of words with slashes between them, and perhaps one before them. -/
structure IsRow (w : List Char) (parts : List (List Char)) : Prop where
  nonempty : parts ≠ []
  words : ∀ part ∈ parts, part ∈ word.matches'
  joined : w = ['/'].intercalate parts ∨ w = '/' :: ['/'].intercalate parts

variable {w : List Char} {parts : List (List Char)}

theorem mem_pattern : w ∈ pattern.matches' ↔ ∃ parts, IsRow w parts := by
  rw [pattern, RegularExpression.matches'_mul, Language.mem_mul]
  constructor
  · rintro ⟨root, hroot, rest, hrest, rfl⟩
    obtain ⟨parts, nonempty, hparts, rfl⟩ := mem_words.1 hrest
    refine ⟨parts, nonempty, hparts, ?_⟩
    rcases hroot with rfl | rfl
    · exact .inl rfl
    · exact .inr rfl
  · rintro ⟨parts, nonempty, hparts, rfl | rfl⟩
    · exact ⟨[], .inl rfl, _, mem_words.2 ⟨parts, nonempty, hparts, rfl⟩, rfl⟩
    · exact ⟨['/'], .inr rfl, _, mem_words.2 ⟨parts, nonempty, hparts, rfl⟩, rfl⟩

/-- The slash that leads a row is all that is dropped from it. -/
theorem IsRow.unrooted (h : IsRow w parts) : unrooted w = ['/'].intercalate parts := by
  rcases h.joined with rfl | rfl
  · obtain ⟨part, rest, rfl⟩ := List.exists_cons_of_ne_nil h.nonempty
    have first := h.words part List.mem_cons_self
    obtain ⟨c, cs, rfl⟩ := List.exists_cons_of_ne_nil (mem_word.1 first).1
    have unslashed : c ≠ '/' := by
      rintro rfl
      exact slash_notMem_of_mem_word first List.mem_cons_self
    rw [intercalate_eq_flatten, List.cons_append]
    unfold IncludePath.unrooted
    split
    case h_1 slash => exact absurd (List.cons.inj slash).1 unslashed
    case h_2 => rfl
  · rfl

theorem IsRow.partsAt_unrooted (h : IsRow w parts) :
    partsAt '/' (IncludePath.unrooted w) = parts := by
  rw [h.unrooted]
  refine partsAt_intercalate h.nonempty fun part hpart => ?_
  exact slash_notMem_of_mem_word (h.words part hpart)

/-! ## What a literal spells -/

/-- A name that an include may go through. -/
structure IsAllowed (segment : String) : Prop where
  nonempty : segment ≠ ""
  characters : ∀ c ∈ segment.toList, c ∈ alphabet
  notHere : segment ≠ "."
  notAbove : segment ≠ ".."

/-- The literal is the segments with slashes between them, and perhaps one before them. -/
structure Spells (literal : String) (segments : List String) : Prop where
  nonempty : segments ≠ []
  allowed : ∀ segment ∈ segments, IsAllowed segment
  spelled : literal = "/".intercalate segments ∨ literal = "/" ++ "/".intercalate segments

variable {literal segment : String} {segments : List String} {p : Path}

theorem isAllowed_iff : IsAllowed segment ↔
    segment.toList ∈ word.matches' ∧ segment ≠ "." ∧ segment ≠ ".." := by
  rw [mem_word]
  constructor
  · intro h
    exact ⟨⟨by simpa using h.nonempty, h.characters⟩, h.notHere, h.notAbove⟩
  · rintro ⟨⟨nonempty, characters⟩, here, above⟩
    exact ⟨by simpa using nonempty, characters, here, above⟩

theorem isSegment_iff {part : List Char} : isSegment part ↔
    part ∈ word.matches' ∧ part ≠ ['.'] ∧ part ≠ ['.', '.'] := by
  have characters : part.all allowed ↔ ∀ c ∈ part, c ∈ alphabet := by
    rw [List.all_eq_true]
    exact forall₂_congr fun _ _ => allowed_iff
  rw [mem_word]
  simp only [isSegment, Bool.and_eq_true, characters, bne_iff_ne, Bool.not_eq_true',
    List.isEmpty_eq_false_iff, and_assoc]

theorem isSegment_toList : isSegment segment.toList ↔ IsAllowed segment := by
  have differs (other : String) : segment.toList ≠ other.toList ↔ segment ≠ other :=
    String.toList_inj.not
  have here : segment.toList ≠ ['.'] ↔ segment ≠ "." := differs "."
  have above : segment.toList ≠ ['.', '.'] ↔ segment ≠ ".." := differs ".."
  rw [isSegment_iff, isAllowed_iff, here, above]

theorem toList_joined (segments : List String) :
    ("/".intercalate segments).toList = ['/'].intercalate (segments.map String.toList) := by
  rw [String.toList_intercalate]
  rfl

theorem Spells.isRow (h : Spells literal segments) :
    IsRow literal.toList (segments.map String.toList) := by
  refine ⟨by simpa using h.nonempty, List.forall_mem_map.2 fun s hs => ?_, ?_⟩
  · exact (isAllowed_iff.1 (h.allowed s hs)).1
  · rcases h.spelled with rfl | rfl
    · exact .inl (toList_joined segments)
    · right
      rw [String.toList_append, toList_joined]
      rfl

/-- The literal spells the segments between its slashes, if they are allowed. -/
theorem spells_segments (h : ∀ part ∈ partsAt '/' (unrooted literal.toList), isSegment part) :
    Spells literal (Path.mk (.ofList (unrooted literal.toList))).segments := by
  have joined := Path.joined_segments ⟨.ofList (unrooted literal.toList)⟩
  refine ⟨Path.segments_ne_nil _, ?_, ?_⟩
  · rw [Path.segments, String.toList_ofList]
    refine List.forall_mem_map.2 fun part hpart => isSegment_toList.1 ?_
    rw [String.toList_ofList]
    exact h part hpart
  · rw [joined]
    unfold unrooted
    split
    case h_1 rest slash =>
      right
      apply String.toList_inj.1
      simp [slash]
    case h_2 =>
      left
      rw [String.ofList_toList]

/-- A literal is allowed if it spells segments, and its path is the one that they make. -/
theorem relative?_iff : relative? literal = some p ↔
    ∃ segments, Spells literal segments ∧ p.text = "/".intercalate segments := by
  unfold relative?
  dsimp only
  constructor
  · intro h
    split at h
    case isFalse => simp at h
    case isTrue valid =>
      obtain rfl := Option.some.inj h
      exact ⟨_, spells_segments (List.all_eq_true.1 valid), (Path.joined_segments _).symm⟩
  · rintro ⟨segments, spells, text⟩
    have row := spells.isRow
    have valid : (partsAt '/' (unrooted literal.toList)).all isSegment := by
      rw [row.partsAt_unrooted, List.all_eq_true]
      exact List.forall_mem_map.2 fun s hs => isSegment_toList.2 (spells.allowed s hs)
    rw [if_pos valid, row.unrooted, ← toList_joined, String.ofList_toList, ← text]

/-- What is allowed matches the pattern, and has no dots between its slashes. -/
theorem isSome_relative?_iff : (relative? literal).isSome ↔ literal.toList ∈ pattern.matches' ∧
    ∀ part ∈ partsAt '/' (unrooted literal.toList), part ≠ ['.'] ∧ part ≠ ['.', '.'] := by
  rw [relative?, mem_pattern, Option.isSome_ite, List.all_eq_true]
  constructor
  · intro valid
    refine ⟨⟨_, (spells_segments valid).isRow⟩, fun part hpart => ?_⟩
    exact (isSegment_iff.1 (valid part hpart)).2
  · rintro ⟨⟨parts, row⟩, undotted⟩ part hpart
    have words := row.words
    rw [← row.partsAt_unrooted] at words
    exact isSegment_iff.2 ⟨words part hpart, undotted part hpart⟩

end IncludePath

/-! ## Where it is looked for -/

/-- The path is the directory with the segments behind it, and goes through them from there. -/
structure Path.Joins (segments : List String) (dir p : Path) : Prop where
  text : p.text = dir.text ++
    (if dir.text = "" ∨ dir.text.toList.getLast? = some '/' then "" else "/") ++
    "/".intercalate segments
  route : p.route = ⟨dir.route.rooted, dir.route.steps ++ segments⟩

/-- The path leads to the place, a file stands there, and the path is short enough to be asked
about. -/
structure FileSystem.HasFile (fs : FileSystem) (p : Path) (place : Place) : Prop where
  located : fs.locate p = .ok place
  file : ∃ content, fs.entry? place = some (.file content)
  short : p.text.utf8ByteSize ≤ longestPath

theorem FileSystem.file?_eq_some_iff {fs : FileSystem} {p : Path} {place : Place} :
    fs.file? p = some place ↔ fs.HasFile p place := by
  constructor
  · intro h
    have located := locate_of_file? h
    unfold file? at h
    split at h
    · simp at h
    rename_i short
    rw [located] at h
    dsimp only at h
    split at h
    · rename_i content hc
      exact ⟨located, ⟨content, hc⟩, by omega⟩
    · simp at h
  · rintro ⟨located, ⟨content, hc⟩, short⟩
    rw [file?, if_neg (by omega), located]
    simp only [hc]

theorem FileSystem.file?_eq_none_iff {fs : FileSystem} {p : Path} :
    fs.file? p = none ↔ ∀ place, ¬fs.HasFile p place := by
  simp only [← file?_eq_some_iff, Option.eq_none_iff_forall_ne_some, ne_eq]

namespace IncludePath

variable {literal : String} {segments : List String} {p : Path}

theorem Spells.segments_eq (h : Spells literal segments) (hp : p.text = "/".intercalate segments) :
    p.segments = segments := by
  have row := h.isRow
  have parts : partsAt '/' p.text.toList = segments.map String.toList := by
    rw [hp, toList_joined, ← row.unrooted, row.partsAt_unrooted]
  rw [Path.segments, parts, List.map_map]
  simp [Function.comp_def]

theorem Spells.names_eq (h : Spells literal segments) (hp : p.text = "/".intercalate segments) :
    p.names = segments := by
  rw [Path.names, h.segments_eq hp, List.filter_eq_self]
  intro segment hsegment
  have allowed := h.allowed segment hsegment
  simp [allowed.nonempty, allowed.notHere]

theorem Spells.head?_segments_ne (h : Spells literal segments)
    (hp : p.text = "/".intercalate segments) : p.segments.head? ≠ some "." := by
  rw [h.segments_eq hp]
  intro dot
  exact (h.allowed "." (List.mem_of_head? dot)).notHere rfl

theorem Spells.route_within (h : Spells literal segments) (hp : p.text = "/".intercalate segments)
    (dir : Path) : (dir.within p).route = ⟨dir.route.rooted, dir.route.steps ++ segments⟩ := by
  have unrooted := (descends_of_relative? (relative?_iff.2 ⟨segments, h, hp⟩)).unrooted
  have names := h.names_eq hp
  by_cases hdir : dir.text = ""
  · have here : dir.route = ⟨false, []⟩ := by
      obtain rfl : dir = ⟨""⟩ := congrArg Path.mk hdir
      rfl
    have same : dir.within p = p := by simp [Path.within, hdir]
    rw [same, here, Path.route, names]
    simp [unrooted, h.head?_segments_ne hp]
  · obtain ⟨through, last, hsegments, hlast, hwithin⟩ := Path.segments_within hdir unrooted
    -- Only an empty directory is made of an empty segment alone.
    have goes : through ≠ [] := by
      rintro rfl
      rcases hlast with rfl | rfl
      · exact Path.segments_ne_nil dir hsegments
      · have text := dir.joined_segments
        rw [hsegments] at text
        exact hdir text.symm
    have head : (dir.within p).segments.head? = dir.segments.head? := by
      rw [hwithin, hsegments, List.head?_append_of_ne_nil _ goes,
        List.head?_append_of_ne_nil _ goes]
    have below : (dir.within p).names = dir.names ++ segments := by
      rw [← names]
      unfold Path.names
      rw [hwithin, hsegments]
      rcases hlast with rfl | rfl <;> simp
    simp only [Path.route, head, below, Path.isRooted_within hdir unrooted, List.append_assoc]

/-- What is spelled is joined to any directory. -/
theorem Spells.joins_within (h : Spells literal segments) (hp : p.text = "/".intercalate segments)
    (dir : Path) : dir.Joins segments (dir.within p) := by
  refine ⟨?_, h.route_within hp dir⟩
  have unrooted := (descends_of_relative? (relative?_iff.2 ⟨segments, h, hp⟩)).unrooted
  rw [← hp, Path.within]
  by_cases hdir : dir.text = ""
  · simp [hdir]
  · by_cases slash : dir.text.toList.getLast? = some '/'
    · simp [unrooted, hdir, slash]
    · simp [unrooted, hdir, slash]

end IncludePath

namespace Sources

variable {s : Sources} {base : Path} {literal : String} {segments : List String} {l : Location}

theorem joins_candidates (h : IncludePath.Spells literal segments) :
    List.Forall₂ (Path.Joins segments) (base :: s.searchDirs) (s.candidates base literal) := by
  have relative : IncludePath.relative? literal = some ⟨"/".intercalate segments⟩ :=
    IncludePath.relative?_iff.2 ⟨segments, h, rfl⟩
  rw [candidates, relative, List.forall₂_map_right_iff, List.forall₂_same]
  intro dir _
  exact h.joins_within rfl dir

/-- **What an include means.** A literal is allowed just if it spells segments, as it does if it
matches the pattern and has no dots between its slashes, and its path is what they make. Another
literal is refused without a look at any file. An allowed one is looked for in the includer's
directory and then in those that are searched, in order: at the directory with the segments behind
it. It means the place of the first file that one of these paths leads to; if there is none, the
error lists them all. -/
theorem find_spelled (s : Sources) (base : Path) (literal : String) (l : Location) :
    ((IncludePath.relative? literal).isSome ↔ literal.toList ∈ IncludePath.pattern.matches' ∧
      ∀ part ∈ partsAt '/' (IncludePath.unrooted literal.toList),
        part ≠ ['.'] ∧ part ≠ ['.', '.']) ∧
    (∀ p, IncludePath.relative? literal = some p ↔
      ∃ segments, IncludePath.Spells literal segments ∧ p.text = "/".intercalate segments) ∧
    ((¬∃ segments, IncludePath.Spells literal segments) → s.candidates base literal = [] ∧
      s.find base literal l = .error ⟨.includeRefused literal, l⟩) ∧
    ∀ segments, IncludePath.Spells literal segments →
      List.Forall₂ (Path.Joins segments) (base :: s.searchDirs) (s.candidates base literal) ∧
      ((∃ before p after place, s.candidates base literal = before ++ p :: after ∧
          (∀ q ∈ before, ∀ place, ¬s.files.HasFile q place) ∧ s.files.HasFile p place ∧
          place.Proper ∧ s.find base literal l = .ok place) ∨
        (∀ q ∈ s.candidates base literal, ∀ place, ¬s.files.HasFile q place) ∧
          s.find base literal l =
            .error ⟨.includeMissing literal (s.candidates base literal), l⟩) := by
  refine ⟨IncludePath.isSome_relative?_iff, fun p => IncludePath.relative?_iff, ?_, ?_⟩
  · intro unspelled
    have refused : IncludePath.relative? literal = none := by
      rw [Option.eq_none_iff_forall_ne_some]
      intro p hp
      obtain ⟨segments, spells, -⟩ := IncludePath.relative?_iff.1 hp
      exact unspelled ⟨segments, spells⟩
    rw [candidates, find, refused]
    exact ⟨rfl, rfl⟩
  · intro segments spells
    refine ⟨joins_candidates spells, ?_⟩
    have relative : IncludePath.relative? literal = some ⟨"/".intercalate segments⟩ :=
      IncludePath.relative?_iff.2 ⟨segments, spells, rfl⟩
    have allowed : ¬(IncludePath.relative? literal).isNone := by
      simp [relative]
    rw [find, if_neg allowed]
    cases found : (s.candidates base literal).findSome? s.files.file? with
    | none =>
      right
      refine ⟨fun q hq => ?_, rfl⟩
      exact FileSystem.file?_eq_none_iff.1 (List.findSome?_eq_none_iff.1 found q hq)
    | some place =>
      left
      obtain ⟨before, p, after, split, hp, hbefore⟩ := List.findSome?_eq_some_iff.1 found
      refine ⟨before, p, after, place, split, fun q hq => ?_, ?_, ?_, rfl⟩
      · exact FileSystem.file?_eq_none_iff.1 (hbefore q hq)
      · exact FileSystem.file?_eq_some_iff.1 hp
      · exact FileSystem.proper_of_file? hp

/-- One literal spells a file that is in the directory that is searched, another leads upwards. -/
theorem find_spelled_besides :
    IncludePath.Spells "/b" ["b"] ∧
    (∃ before p after place, besides.candidates ⟨"/home"⟩ "/b" = before ++ p :: after ∧
      (∀ q ∈ before, ∀ place, ¬besides.files.HasFile q place) ∧ besides.files.HasFile p place ∧
      place.Proper ∧ besides.find ⟨"/home"⟩ "/b" (.start none) = .ok place) ∧
    (¬∃ segments, IncludePath.Spells "b/../b" segments) ∧
    besides.find ⟨"/home"⟩ "b/../b" (.start none) =
      .error ⟨.includeRefused "b/../b", .start none⟩ := by
  have spells : IncludePath.Spells "/b" ["b"] := by
    refine ⟨by decide, ?_, .inr rfl⟩
    rw [List.forall_mem_singleton]
    exact IncludePath.isSegment_toList.1 (by decide)
  have upwards : ¬∃ segments, IncludePath.Spells "b/../b" segments := by
    rintro ⟨segments, h⟩
    have allowed := (find_spelled besides ⟨"/home"⟩ "b/../b" (.start none)).2.1 ⟨_⟩ |>.2
      ⟨segments, h, rfl⟩
    have refused : IncludePath.relative? "b/../b" = none := rfl
    rw [refused] at allowed
    cases allowed
  have found := ((find_spelled besides ⟨"/home"⟩ "/b" (.start none)).2.2.2 ["b"] spells).2
  have refused := ((find_spelled besides ⟨"/home"⟩ "b/../b" (.start none)).2.2.1 upwards).2
  refine ⟨spells, ?_, upwards, refused⟩
  rcases found with found | ⟨-, missing⟩
  · exact found
  · rw [find_besides] at missing
    cases missing

end Sources

end TypeDomains
