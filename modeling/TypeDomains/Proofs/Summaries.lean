import TypeDomains.Proofs.Flags
import TypeDomains.Proofs.Transforms

/-!
# The lines of a summary

A summary has an item for each domain and for each transform that was looked at, and each item
starts on a new line. Names are shown as they are, so an item takes one line unless it shows a name
with a newline in it (`Compilation.partsAt_summary`). What an item says of a transform is counted
among the types of its source (`Transform.SumsUp`).
-/

namespace TypeDomains

/-! ## Newlines in an item -/

theorem newline_notMem_toDigits (n : Nat) : '\n' ∉ Nat.toDigits 10 n := by
  intro newline
  exact absurd (Nat.isDigit_of_mem_toDigits (by decide) (by decide) newline) (by decide)

theorem newline_mem_listed {names : List String} :
    '\n' ∈ (listed names).toList ↔ ∃ name ∈ names, '\n' ∈ name.toList := by
  have inside : '\n' ∈ [',', ' '].intercalate (names.map String.toList) ↔
      ∃ name ∈ names, '\n' ∈ name.toList := by
    induction names with
    | nil => simp
    | cons name names ih =>
      cases names with
      | nil => simp
      | cons next names => simp_all [List.intercalate_cons_cons]
  simp [listed, inside]

/-- The names that the item of a domain shows. -/
def Domain.shown (d : Domain) : List String := d.tag :: d.types.map DataType.tag

theorem Domain.newline_mem_line {d : Domain} :
    '\n' ∈ d.line.toList ↔ ∃ name ∈ d.shown, '\n' ∈ name.toList := by
  have text (s : String) : toString s = s := rfl
  simp [line, shown, newline_mem_listed, newline_notMem_toDigits, text]

theorem newline_mem_flagged {flagged : List DataType} :
    '\n' ∈ (if flagged.isEmpty then "" else " " ++ listed (flagged.map DataType.tag)).toList ↔
      ∃ t ∈ flagged, '\n' ∈ t.tag.toList := by
  cases flagged with
  | nil => simp
  | cons t flagged =>
    rw [List.isEmpty_cons, if_neg Bool.false_ne_true, String.toList_append, List.mem_append,
      newline_mem_listed]
    simp

theorem Transform.newline_mem_line {t : Transform} {d : Domain} :
    '\n' ∈ (t.line d).toList ↔ '\n' ∈ t.source.toList ∨ '\n' ∈ t.destination.toList ∨
      ∃ w ∈ d.types.filter DataType.different, '\n' ∈ w.tag.toList := by
  have text (s : String) : toString s = s := rfl
  unfold line
  generalize d.types.filter DataType.different = flagged
  simp only
  rw [← newline_mem_flagged, String.toList_append, List.mem_append, ← or_assoc]
  simp only [String.toList_append, List.mem_append, text]
  simp [newline_notMem_toDigits]

/-! ## What is counted -/

namespace Domain

variable {a b : Domain}

/-- The types whose tags are tags of types of the other domain, too. -/
def sharedWith (a b : Domain) : List DataType :=
  a.types.filter fun t => t.tag ∈ b.types.map DataType.tag

/-- The shared types that the difference flags. -/
def flaggedAgainst (a b : Domain) : List DataType :=
  (a.sharedWith b).filter fun t => ∃ w ∈ (a.differenceFrom b).types, w.tag = t.tag ∧ w.different

theorem map_tag_differenceFrom (ha : a.Lawful) (hb : b.Lawful) :
    (a.differenceFrom b).types.map DataType.tag = (a.sharedWith b).map DataType.tag := by
  rw [(compares_of_lawful ha hb).map_tag, List.filter_map]
  rfl

/-- No two types of a difference have one tag, so a tag tells whether its type is flagged. -/
theorem map_tag_flagged (ha : a.Lawful) (hb : b.Lawful) :
    ((a.differenceFrom b).types.filter DataType.different).map DataType.tag =
      (a.flaggedAgainst b).map DataType.tag := by
  have nodup : ((a.differenceFrom b).types.map DataType.tag).Nodup := by
    rw [(compares_of_lawful ha hb).map_tag]
    exact ha.nodup_tags.filter _
  let flagged (tag : String) : Bool :=
    ∃ w ∈ (a.differenceFrom b).types, w.tag = tag ∧ w.different
  have flagged_iff (v : DataType) (hv : v ∈ (a.differenceFrom b).types) :
      v.different = flagged v.tag := by
    rw [Bool.eq_iff_iff, decide_eq_true_iff]
    constructor
    · exact fun different => ⟨v, hv, rfl, different⟩
    · rintro ⟨w, hw, tags, different⟩
      rwa [← List.inj_on_of_nodup_map nodup hw hv tags]
  calc ((a.differenceFrom b).types.filter DataType.different).map DataType.tag
      = ((a.differenceFrom b).types.filter (flagged ∘ DataType.tag)).map DataType.tag := by
        rw [List.filter_congr flagged_iff]
        rfl
    _ = ((a.sharedWith b).map DataType.tag).filter flagged := by
        rw [← List.filter_map, map_tag_differenceFrom ha hb]
    _ = (a.flaggedAgainst b).map DataType.tag := List.filter_map

end Domain

namespace Transform

variable {ds : List Domain} {t : Transform} {d : Domain}

/-- The start of an item, which says that `k` of `n` types differ. -/
def counted (t : Transform) (k n : Nat) : String :=
  s!"transform {t.source} -> {t.destination}: {k} of {n} shared types differ"

/-- The item counts the types that the two domains of the transform share, and those of them that
are flagged, and names the latter. -/
def SumsUp (ds : List Domain) (t : Transform) (item : String) : Prop :=
  ∃ source destination, Domain.find? ds t.source = some source ∧
    Domain.find? ds t.destination = some destination ∧
    item = t.counted (source.flaggedAgainst destination).length
        (source.sharedWith destination).length ++
      if (source.flaggedAgainst destination).isEmpty then ""
      else " " ++ listed ((source.flaggedAgainst destination).map DataType.tag)

theorem Shows.sumsUp (h : Shows ds t d) (lawful : ∀ d ∈ ds, d.Lawful) : t.SumsUp ds (t.line d) := by
  obtain ⟨source, destination, hsource, hdestination, rfl⟩ := h
  have ha := lawful source (List.mem_of_find?_eq_some hsource)
  have hb := lawful destination (List.mem_of_find?_eq_some hdestination)
  have shared := congrArg List.length (Domain.map_tag_differenceFrom ha hb)
  have flagged := Domain.map_tag_flagged ha hb
  have count := congrArg List.length flagged
  rw [List.length_map, List.length_map] at shared count
  have none : ((source.differenceFrom destination).types.filter DataType.different).isEmpty =
      (source.flaggedAgainst destination).isEmpty := by
    rw [Bool.eq_iff_iff, List.isEmpty_iff_length_eq_zero, count, List.isEmpty_iff_length_eq_zero]
  refine ⟨source, destination, hsource, hdestination, ?_⟩
  unfold line
  simp only
  rw [shared, flagged, count, none]
  rfl

end Transform

namespace Compilation

variable {x : Expansion} {withTransforms : Bool} {c : Compilation}

/-- No name that the summary shows has a newline in it. -/
def Unbroken (c : Compilation) : Prop := ∀ d ∈ c.domains, ∀ name ∈ d.shown, '\n' ∉ name.toList

instance (c : Compilation) : Decidable c.Unbroken :=
  inferInstanceAs (Decidable (∀ d ∈ c.domains, ∀ name ∈ d.shown, '\n' ∉ name.toList))

/-- The transforms that are looked at. -/
def looked (withTransforms : Bool) (c : Compilation) : List Transform :=
  if withTransforms then c.source.transforms else []

theorem lawful_of_ofExpansion (h : ofExpansion withTransforms x = .ok c) :
    ∀ d ∈ c.domains, d.Lawful := by
  obtain ⟨u, -, hc⟩ := bind_ok.1 h
  obtain ⟨ds, hds, _, -, rfl⟩ := ofUniverse_ok.1 (mapError_ok.1 hc)
  exact fun d hd => Domain.lawful_of_check ((Universe.domains_ok.1 hds).2.checked d hd)

theorem shows_of_ofExpansion (h : ofExpansion withTransforms x = .ok c) :
    List.Forall₂ (Transform.Shows c.domains) (c.looked withTransforms) c.differences := by
  obtain ⟨u, -, hc⟩ := bind_ok.1 h
  obtain ⟨ds, hds, differences, looks, rfl⟩ := ofUniverse_ok.1 (mapError_ok.1 hc)
  cases withTransforms with
  | true => exact Universe.differences_ok.1 looks
  | false =>
    obtain rfl := Except.ok.inj looks
    exact .nil

/-- The items behind those of the domains, one for each transform. -/
theorem forall₂_transformLines (h : ofExpansion withTransforms x = .ok c) :
    List.Forall₂ (fun t line => ∃ d, t.Shows c.domains d ∧ line = t.line d)
      (c.looked withTransforms) c.transformLines := by
  have shows := shows_of_ofExpansion h
  have zip : c.source.transforms.zip c.differences =
      (c.looked withTransforms).zip c.differences := by
    cases withTransforms with
    | true => rfl
    | false =>
      have none : c.differences = [] := List.forall₂_nil_left_iff.1 shows
      rw [none, List.zip_nil_right, List.zip_nil_right]
  rw [transformLines, zip]
  generalize c.looked withTransforms = ts, c.differences = differences at shows
  induction shows with
  | nil => exact .nil
  | cons shown _ ih => exact .cons ⟨_, shown, rfl⟩ ih

/-- Where no domain shows a newline, no transform between domains does. -/
theorem newline_notMem_transformLine (lawful : ∀ d ∈ c.domains, d.Lawful) (unbroken : c.Unbroken)
    {t : Transform} {d : Domain} (h : t.Shows c.domains d) : '\n' ∉ (t.line d).toList := by
  obtain ⟨source, destination, hsource, hdestination, rfl⟩ := h
  have ha := List.mem_of_find?_eq_some hsource
  have hb := List.mem_of_find?_eq_some hdestination
  have tag {name : String} {d : Domain} (found : Domain.find? c.domains name = some d) :
      d.tag = name := by
    simpa using List.find?_some found
  rw [Transform.newline_mem_line, ← tag hsource, ← tag hdestination]
  rintro (newline | newline | ⟨w, hw, newline⟩)
  · exact unbroken source ha _ List.mem_cons_self newline
  · exact unbroken destination hb _ List.mem_cons_self newline
  · have shown := List.mem_map_of_mem (f := DataType.tag) (List.mem_filter.1 hw).1
    rw [Domain.map_tag_differenceFrom (lawful _ ha) (lawful _ hb)] at shown
    obtain ⟨t, ht, same⟩ := List.mem_map.1 shown
    refine unbroken source ha w.tag (List.mem_cons_of_mem _ ?_) newline
    exact same ▸ List.mem_map_of_mem (List.mem_filter.1 ht).1

/-- Names of domains and their types are all that could break an item. -/
theorem forall_newline_notMem_iff (h : ofExpansion withTransforms x = .ok c) :
    (∀ line ∈ c.lines, '\n' ∉ line.toList) ↔ c.Unbroken := by
  constructor
  · intro free d hd name hname newline
    have line : d.line ∈ c.lines := List.mem_append_left _ (List.mem_map_of_mem hd)
    exact free d.line line (Domain.newline_mem_line.2 ⟨name, hname, newline⟩)
  · intro unbroken line hline
    rcases List.mem_append.1 hline with item | item
    · obtain ⟨d, hd, rfl⟩ := List.mem_map.1 item
      rw [Domain.newline_mem_line]
      exact fun ⟨name, hname, newline⟩ => unbroken d hd name hname newline
    · obtain ⟨t, -, d, shown, rfl⟩ := exists_of_forall₂_right (forall₂_transformLines h) item
      exact newline_notMem_transformLine (lawful_of_ofExpansion h) unbroken shown

theorem length_lines (h : ofExpansion withTransforms x = .ok c) :
    c.lines.length = c.domains.length + c.differences.length := by
  have items := (forall₂_transformLines h).length_eq
  rw [(shows_of_ofExpansion h).length_eq] at items
  rw [items, ← List.length_map Domain.line, ← List.length_append]
  rfl

/-- **Summaries.** Whatever compiles, the summary starts a line for each domain, in order, and then
for each transform that is looked at, in order, where it counts the types that both its domains
have and those of them that the difference flags. It has no other lines exactly if no domain and no
type of one has a newline in its name. -/
theorem partsAt_summary (h : ofExpansion withTransforms x = .ok c) (nonempty : c.domains ≠ []) :
    List.Forall₂ (Transform.SumsUp c.domains)
      (if withTransforms then c.source.transforms else []) c.transformLines ∧
    partsAt '\n' c.summary.toList =
      (c.domains.map Domain.line ++ c.transformLines).flatMap (fun line => partsAt '\n' line.toList) ∧
    ((partsAt '\n' c.summary.toList).length = c.domains.length + c.differences.length ↔
      c.Unbroken) ∧
    (c.Unbroken → partsAt '\n' c.summary.toList =
      (c.domains.map Domain.line ++ c.transformLines).map String.toList) := by
  have lines_ne_nil : c.lines.map String.toList ≠ [] := by
    intro none
    obtain ⟨domains, -⟩ := List.append_eq_nil_iff.1 (List.map_eq_nil_iff.1 none)
    exact nonempty (List.map_eq_nil_iff.1 domains)
  have text : c.summary.toList = ['\n'].intercalate (c.lines.map String.toList) :=
    String.toList_intercalate
  have cut : partsAt '\n' c.summary.toList =
      (c.lines.map String.toList).flatMap (partsAt '\n') := by
    rw [text, partsAt_intercalate_eq_flatMap lines_ne_nil]
  refine ⟨?_, ?_, ?_, fun unbroken => ?_⟩
  · exact (forall₂_transformLines h).imp fun t line ⟨d, shown, same⟩ =>
      same ▸ shown.sumsUp (lawful_of_ofExpansion h)
  · rw [cut, List.flatMap_map]
    rfl
  · rw [cut, ← length_lines h, ← List.length_map String.toList, length_flatMap_partsAt_iff,
      List.forall_mem_map, forall_newline_notMem_iff h]
  · rw [text, partsAt_intercalate lines_ne_nil
      (List.forall_mem_map.2 ((forall_newline_notMem_iff h).2 unbroken))]
    rfl

/-- Two domains that share a product and a sum, which lacks a variant in the second. -/
def lessened : String :=
  "(define a (domain (product p x::int) (sum s (v) (w))))" ++
    "(define b (permute_domain a (with s (exclude w))))(transform a b)"

theorem partsAt_summary_lessened : ∃ c, ofString ⟨⟨[], ⟨"/"⟩⟩, []⟩ true lessened = .ok c ∧
    List.Forall₂ (Transform.SumsUp c.domains) c.source.transforms c.transformLines ∧
    partsAt '\n' c.summary.toList = ["domain a: 2 types (p, s)".toList,
      "domain b: 2 types (p, s)".toList,
      "transform a -> b: 1 of 2 shared types differ (s)".toList] := by
  have read : ∃ c, ofString ⟨⟨[], ⟨"/"⟩⟩, []⟩ true lessened = .ok c ∧ c.domains ≠ [] ∧
      c.Unbroken ∧ c.domains.map Domain.line ++ c.transformLines =
        ["domain a: 2 types (p, s)", "domain b: 2 types (p, s)",
          "transform a -> b: 1 of 2 shared types differ (s)"] := by
    rw [ofString, Evaluation.ofString_eq]
    decide +kernel
  obtain ⟨c, compiled, nonempty, unbroken, lines⟩ := read
  obtain ⟨sums, -, -, whole⟩ := partsAt_summary compiled nonempty
  refine ⟨c, compiled, sums, ?_⟩
  rw [whole unbroken, lines]
  rfl

/-- A product in a domain whose name is of two lines. -/
def broken : String := "(define 'a\\nb' (domain (product p)))"

/-- The only item of its summary takes two lines. -/
theorem not_forall_length_partsAt_summary : ¬∀ (x : Expansion) (withTransforms : Bool)
    (c : Compilation), ofExpansion withTransforms x = .ok c → c.domains ≠ [] →
      (partsAt '\n' c.summary.toList).length = c.domains.length + c.differences.length := by
  intro all
  have read : ∃ c, ofString ⟨⟨[], ⟨"/"⟩⟩, []⟩ true broken = .ok c ∧ c.domains ≠ [] ∧
      (partsAt '\n' c.summary.toList).length = 2 ∧
      c.domains.length + c.differences.length = 1 := by
    rw [ofString, Evaluation.ofString_eq]
    decide +kernel
  obtain ⟨c, compiled, nonempty, lines, items⟩ := read
  have same := all _ _ c compiled nonempty
  omega

end Compilation

end TypeDomains
