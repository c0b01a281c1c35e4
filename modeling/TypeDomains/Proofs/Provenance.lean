import TypeDomains.Compilation
import TypeDomains.Proofs.Blame
import TypeDomains.Proofs.Evaluation

/-!
# Where errors come from

A compilation that fails is blamed on the text itself, or on the universe for being empty, or else
on a place where a value stands in the text or in a file that it includes
(`Compilation.ofString_blames`). No step makes a place up: what the forms stand at is carried
through the walk over the files, through permutations and into the check of each domain.
-/

namespace TypeDomains

variable {L : Location → Prop}

/-! ## Checking a domain -/

namespace NameTable

theorem at_enter (t : NameTable) (name : String) (kind : NameKind) {l : Location} (hl : L l) :
    ComesTo (Located.At L) (fun _ => True) (t.enter name kind l) := by
  unfold enter
  split
  · trivial
  · exact hl

theorem at_enterElements (kind : TupleKind) {es : List Element} (h : ∀ e ∈ es, e.At L)
    (t : NameTable) (fields : List String) :
    ComesTo (Located.At L) (fun _ => True) (enterElements kind t fields es) := by
  induction es generalizing t fields with
  | nil => trivial
  | cons e es ih =>
    obtain ⟨he, hes⟩ := List.forall_mem_cons.1 h
    refine (at_enter t _ _ he.location).bind fun t _ => ?_
    split
    · exact he.location
    · exact ih hes t _

theorem at_enterTuple (kind : NameKind) (t : NameTable) {tuple : Tuple} (h : tuple.At L) :
    ComesTo (Located.At L) (fun _ => True) (enterTuple kind t tuple) :=
  (at_enter t _ kind h.location).bind fun t _ =>
    (at_enterElements tuple.kind h.elements t.push []).bind fun _ _ => trivial

theorem at_enterType {domain : Location} (hd : L domain) (t : NameTable) {type : DataType}
    (h : type.At L) : ComesTo (Located.At L) (fun _ => True) (enterType domain t type) := by
  cases type with
  | builtin b => exact at_enter t _ _ hd
  | tuple tuple => exact at_enterTuple .type t h
  | sum s =>
    exact (at_enter t _ _ h.location).bind fun t _ =>
      .foldlM trivial fun v hv t _ => at_enterTuple .variant t (h.variants v hv)

theorem at_ofDomain {d : Domain} (h : d.At L) :
    ComesTo (Located.At L) (fun _ => True) (ofDomain d) := by
  have builtins : ComesTo (Located.At L) (fun _ => True)
      (Builtin.all.foldlM (fun t b => t.enter b.tag .builtin d.location) empty) :=
    .foldlM trivial fun b _ t _ => at_enter t _ _ h.location
  exact builtins.bind fun t _ =>
    .foldlM trivial fun type ht t _ => at_enterType h.location t (h.types type ht)

end NameTable

namespace Element

variable {e : Element}

theorem At.checkReference (h : e.At L) (names : NameTable) (t : Tuple) :
    ComesTo (Located.At L) (fun _ => True) (e.checkReference names t) := by
  unfold Element.checkReference
  split
  · split
    · trivial
    · exact h.type
  · split
    · exact h.type
    · exact h.type

theorem At.checkOrder (h : e.At L) (afterVariadic : Bool) :
    ComesTo (Located.At L) (fun _ => True) (e.checkOrder afterVariadic) := by
  unfold Element.checkOrder
  split
  · trivial
  · split <;> exact h.location

theorem At.checkIon (h : e.At L) : ComesTo (Located.At L) (fun _ => True) e.checkIon := by
  unfold Element.checkIon
  split
  · exact h.location
  · trivial

end Element

theorem Tuple.at_checkElements (names : NameTable) (t : Tuple) {es : List Element}
    (h : ∀ e ∈ es, e.At L) (afterVariadic : Bool) :
    ComesTo (Located.At L) (fun _ => True) (t.checkElements names afterVariadic es) := by
  induction es generalizing afterVariadic with
  | nil => trivial
  | cons e es ih =>
    obtain ⟨he, hes⟩ := List.forall_mem_cons.1 h
    refine (he.checkReference names t).bind fun _ _ => ?_
    refine (he.checkOrder afterVariadic).bind fun _ _ => ?_
    exact he.checkIon.bind fun _ _ => ih hes _

theorem Tuple.At.check {t : Tuple} (h : t.At L) (names : NameTable) :
    ComesTo (Located.At L) (fun _ => True) (t.check names) := by
  unfold Tuple.check
  split
  · exact h.location
  · exact t.at_checkElements names h.elements false

theorem DataType.At.check {t : DataType} (h : t.At L) (names : NameTable) :
    ComesTo (Located.At L) (fun _ => True) (t.check names) := by
  cases t with
  | builtin b => trivial
  | tuple t => exact Tuple.At.check h names
  | sum s =>
    rw [DataType.check]
    split
    · exact h.location
    · exact .forM trivial fun v hv => (h.variants v hv).check names

/-- What a domain is blamed for stands where the domain or some part of it does. -/
theorem Domain.At.check {d : Domain} (h : d.At L) :
    ComesTo (Located.At L) (fun _ => True) d.check :=
  (NameTable.at_ofDomain h).bind fun names _ =>
    .forM trivial fun t ht => (h.types t ht).check names

/-! ## Permuting a domain -/

theorem at_excludeType {types : List DataType} {i : Ident} (hi : i.At L)
    (h : ∀ t ∈ types, t.At L) :
    ComesTo (Located.At L) (fun types => ∀ t ∈ types, t.At L) (excludeType types i) := by
  unfold excludeType
  split
  · exact hi
  split
  · exact fun t kept => h t (List.eraseP_subset kept)
  · exact hi

theorem at_removeVariant (sum : String) {variants : List Tuple} {i : Ident} (hi : i.At L)
    (h : ∀ v ∈ variants, v.At L) :
    ComesTo (Located.At L) (fun variants => ∀ v ∈ variants, v.At L)
      (removeVariant sum variants i) := by
  unfold removeVariant
  split
  · exact fun v kept => h v (List.eraseP_subset kept)
  · exact hi

namespace SumChange

variable {c : SumChange} {types : List DataType}

theorem at_change (hc : c.At L) {s : Sum} (h : s.At L) :
    ComesTo (Located.At L) (Sum.At L) (c.change s) := by
  have removal : ComesTo (Located.At L) (fun variants => ∀ v ∈ variants, v.At L)
      (c.removed.foldlM (removeVariant c.tag) s.variants) :=
    .foldlM h.variants fun i hi _ hv => at_removeVariant c.tag (hc.removed i hi) hv
  exact removal.bind fun _ kept => ⟨h.location, List.forall_mem_append.2 ⟨kept, hc.added⟩⟩

theorem at_changeFirst (hc : c.At L) (h : ∀ t ∈ types, t.At L) :
    ComesTo (Located.At L) (fun types => ∀ t ∈ types, t.At L) (c.changeFirst types) := by
  induction types with
  | nil => exact hc.location
  | cons t ts ih =>
    obtain ⟨ht, hts⟩ := List.forall_mem_cons.1 h
    unfold changeFirst
    split
    · split
      · exact (at_change hc ht).bind fun _ hs => List.forall_mem_cons.2 ⟨hs, hts⟩
      · exact hc.location
    · exact (ih hts).bind fun _ rest => List.forall_mem_cons.2 ⟨ht, rest⟩

theorem at_apply (hc : c.At L) (h : ∀ t ∈ types, t.At L) :
    ComesTo (Located.At L) (fun types => ∀ t ∈ types, t.At L) (apply types c) := by
  unfold apply
  split
  · exact hc.location
  · exact at_changeFirst hc h

end SumChange

namespace Permutation

variable {p : Permutation}

theorem at_alterTypes (hp : p.At L) {types : List DataType} (h : ∀ t ∈ types, t.At L) :
    ComesTo (Located.At L) (fun types => ∀ t ∈ types, t.At L) (p.alterTypes types) := by
  refine (ComesTo.foldlM h fun i hi _ ht => at_excludeType (hp.excluded i hi) ht).bind
    fun _ left => ?_
  refine (ComesTo.foldlM left fun c hc _ ht => SumChange.at_apply (hp.sums c hc) ht).bind
    fun _ changed => ?_
  exact List.forall_mem_append.2 ⟨changed, hp.included⟩

/-- What comes of a permutation stands where the permutation and its base do. -/
theorem at_toDomain (hp : p.At L) {ds : List Domain} (h : ∀ d ∈ ds, d.At L) :
    ComesTo (Located.At L) (Domain.At L) (p.toDomain ds) := by
  unfold toDomain
  split
  · exact hp.location
  · rename_i base found
    have hbase := h base (List.mem_of_find?_eq_some found)
    exact (at_alterTypes hp hbase.types).bind fun _ types => ⟨hp.location, types⟩

end Permutation

/-! ## Compiling a universe -/

namespace Statement

variable {x : Statement} {ds : List Domain}

theorem At.location (h : x.At L) : L x.location := by
  cases x with
  | domain d => exact Domain.At.location h
  | permutation p => exact Permutation.At.location h
  | transform t => exact h

theorem at_defines? (hx : x.At L) (h : ∀ d ∈ ds, d.At L) :
    ComesTo (Located.At L) (fun o => ∀ d ∈ o, d.At L) (x.defines? ds) := by
  cases x with
  | domain d =>
    intro d' same
    obtain rfl := Option.mem_some_iff.1 same
    exact hx
  | permutation p =>
    refine (Permutation.at_toDomain hx h).map fun d hd d' same => ?_
    obtain rfl := Option.mem_some_iff.1 same
    exact hd
  | transform t =>
    intro d none
    exact absurd none (Option.not_mem_none d)

theorem at_define (hx : x.At L) (h : ∀ d ∈ ds, d.At L) :
    ComesTo (Located.At L) (fun ds => ∀ d ∈ ds, d.At L) (x.define ds) := by
  refine (at_defines? hx h).bind fun o ho => ?_
  cases o with
  | none => exact h
  | some d =>
    have hd : d.At L := ho d rfl
    dsimp only
    split
    · exact hx.location
    · exact hd.check.bind fun _ _ =>
        List.forall_mem_append.2 ⟨h, List.forall_mem_singleton.2 hd⟩

end Statement

/-- Only an empty universe is blamed on no place of `L`. -/
def DomainError.Accounted (L : Location → Prop) (e : DomainError) : Prop :=
  e = ⟨.emptyUniverse, .unknown⟩ ∨ e.At L

namespace Universe

variable {u : Universe}

theorem at_domains (h : ∀ x ∈ u.statements, x.At L) :
    ComesTo (DomainError.Accounted L) (fun ds => ∀ d ∈ ds, d.At L) u.domains := by
  unfold domains
  split
  · exact .inl rfl
  · have run : ComesTo (Located.At L) (fun ds => ∀ d ∈ ds, d.At L)
        (u.statements.foldlM Statement.define []) :=
      .foldlM (by simp) fun x hx ds hds => Statement.at_define (h x hx) hds
    exact run.mono (fun _ => .inr) fun _ => id

theorem at_side {t : Transform} (ht : L t.location) (ds : List Domain) (tag : String) :
    ComesTo (Located.At L) (fun _ => True) (t.side ds tag) := by
  unfold Transform.side
  split
  · trivial
  · exact ht

theorem at_differences (h : ∀ x ∈ u.statements, x.At L) (ds : List Domain) :
    ComesTo (Located.At L) (fun _ => True) (u.differences ds) := by
  have each : ∀ t ∈ u.transforms, ComesTo (Located.At L) (fun _ => True) (t.difference ds) := by
    intro t ht
    obtain ⟨x, hx, same⟩ := List.mem_filterMap.1 ht
    cases x with
    | transform t' =>
      obtain rfl := Option.some.inj same
      have here : L t'.location := h _ hx
      exact (at_side here ds _).bind fun _ _ => (at_side here ds _).bind fun _ _ => trivial
    | domain d | permutation p => simp at same
  exact (ComesTo.mapM each).mono (fun _ => id) fun _ _ => trivial

theorem at_ofUniverse (h : ∀ x ∈ u.statements, x.At L) (withTransforms : Bool) :
    ComesTo (DomainError.Accounted L) (fun _ => True)
      (Compilation.ofUniverse withTransforms u) := by
  refine (at_domains h).bind fun ds _ => ?_
  have compared : ComesTo (DomainError.Accounted L) (fun _ => True) (u.differences ds) :=
    (at_differences h ds).mono (fun _ => .inr) fun _ => id
  cases withTransforms with
  | true => exact compared.bind fun _ _ => trivial
  | false => trivial

end Universe

/-! ## Walking over the files -/

/-- The error is one of the text alone, or stands at a place of `L`. -/
def SourceError.Accounted (L : Location → Prop) (e : SourceError) : Prop :=
  (∃ fault, e.cause = .text fault) ∨ e.At L

namespace Sources

variable {s : Sources} {seen : List Route} {f : PlacedForm} {fs : List PlacedForm} {p : Place}
  {l : Location}

/-- What is read from the file stands at places of `L`. -/
def HoldsAt (s : Sources) (L : Location → Prop) (p : Place) : Prop :=
  ∀ content vs, s.files.read p = .ok content → SExpr.ofText (some p.path.text) content = .ok vs →
    ∀ v ∈ vs, v.At L

def Step.At (L : Location → Prop) : Step → Prop
  | statement x => x.At L
  | file _ l => L l
  | nothing => True

theorem at_find (hl : L l) (base : Path) (literal : String) :
    ComesTo (Located.At L) (fun _ => True) (s.find base literal l) := by
  unfold find
  split
  · exact hl
  split
  · trivial
  · exact hl

theorem at_step (hf : f.form.At L) : ComesTo (Located.At L) (Step.At L) (s.step seen f) := by
  refine (Form.at_ofSExpr hf).bind fun form hform => ?_
  cases form with
  | statement x => exact hform
  | inclusion literal l =>
    have here : L l := hform
    refine (at_find here f.base literal).bind fun place _ => ?_
    change Step.At L (if seen.contains place.route then .nothing else .file place l)
    split
    · trivial
    · exact here

theorem at_forms (hl : L l) (hp : s.HoldsAt L p) :
    ComesTo (SourceError.Accounted L) (fun fs => ∀ f ∈ fs, f.form.At L) (s.forms p l) := by
  unfold forms
  split
  · exact .inr hl
  · rename_i content read
    split
    · exact .inl ⟨_, rfl⟩
    · rename_i values hvalues
      exact List.forall_mem_map.2 (hp content values read hvalues)

theorem at_expand (hfs : ∀ f ∈ fs, f.form.At L)
    (files : ∀ p ∈ (s.expand seen fs).reads, s.HoldsAt L p) :
    ComesTo (SourceError.Accounted L) (fun xs => ∀ x ∈ xs, x.At L)
      (s.expand seen fs).statements := by
  -- By the recursion of the walk. What a file adds stands where its values do, and each file that is
  -- read further on is one of those that the whole walk reads.
  induction seen, fs using Sources.expand.induct s with
  | case1 seen =>
    rw [expand_nil]
    exact fun x hx => absurd hx List.not_mem_nil
  | case2 seen f fs ih ihFile =>
    obtain ⟨hf, rest⟩ := List.forall_mem_cons.1 hfs
    have step : ComesTo (Located.At L) (Step.At L) (s.step seen f) := at_step hf
    rw [expand_cons] at files ⊢
    cases hs : s.step seen f with
    | error e => exact .inr (step.of_error hs)
    | ok k =>
      rw [hs] at files
      have hk := step.of_ok hs
      cases k with
      | statement x =>
        exact (ih rest files).map fun xs hxs => List.forall_mem_cons.2 ⟨hk, hxs⟩
      | nothing => exact ih rest files
      | file p l =>
        obtain ⟨hp, files⟩ := List.forall_mem_cons.1 files
        have included := at_forms (s := s) (p := p) hk hp
        dsimp only [Expansion.ask, Expansion.read] at files ⊢
        cases hg : s.forms p l with
        | error e => exact included.of_error hg
        | ok gs =>
          rw [hg] at files
          exact ihFile p l hs gs (List.forall_mem_append.2 ⟨included.of_ok hg, rest⟩) files

/-- What a text expands to stands at places of `L`, if all values do that are read on the way. -/
theorem at_ofText {base : Path} {file : Option String} {text : String}
    (top : ∀ vs, SExpr.ofText file text = .ok vs → ∀ v ∈ vs, v.At L)
    (files : ∀ p ∈ (s.ofText seen base file text).reads, s.HoldsAt L p) :
    ComesTo (SourceError.Accounted L) (fun xs => ∀ x ∈ xs, x.At L)
      (s.ofText seen base file text).statements := by
  unfold ofText at files ⊢
  split at files
  · exact .inl ⟨_, rfl⟩
  · rename_i values hvalues
    exact at_expand (List.forall_mem_map.2 (top values hvalues)) files

end Sources

/-! ## Every error -/

/-- A value of the text stands there, at the top or inside another one. -/
def SExpr.HasAt (file : Option String) (text : String) (l : Location) : Prop :=
  l.file = file ∧ ∃ vs, ofText file text = .ok vs ∧ ∃ v ∈ vs.flatMap preorder, v.location = l

/-- A value stands there in the text, or in a file that is read because the text includes it. -/
inductive Sources.Shows (s : Sources) (text : String) (l : Location) : Prop where
  | text : SExpr.HasAt none text l → Shows s text l
  | file {place content} : place ∈ (s.ofString text).reads → s.files.read place = .ok content →
    SExpr.HasAt (some place.path.text) content l → Shows s text l

theorem SExpr.at_hasAt {file : Option String} {text : String} {vs : List SExpr}
    (h : ofText file text = .ok vs) : ∀ v ∈ vs, v.At (HasAt file text) := by
  intro v hv w hw
  have inside : w ∈ vs.flatMap preorder := List.mem_flatMap.2 ⟨v, hv, hw⟩
  exact ⟨file_of_mem_preorder h w inside, vs, h, w, inside, rfl⟩

theorem SExpr.At.mono {M : Location → Prop} {e : SExpr} (h : e.At L) (hLM : ∀ l, L l → M l) :
    e.At M :=
  fun v hv => hLM _ (h v hv)

theorem Sources.at_ofString (s : Sources) (text : String) :
    ComesTo (SourceError.Accounted (s.Shows text)) (fun xs => ∀ x ∈ xs, x.At (s.Shows text))
      (s.ofString text).statements := by
  refine at_ofText (fun vs hvs v hv => (SExpr.at_hasAt hvs v hv).mono fun _ => .text) ?_
  intro p hp content vs read hvs v hv
  exact (SExpr.at_hasAt hvs v hv).mono fun _ => .file hp read

namespace Compilation

/-- **Errors stand at values.** An error is one of the text alone, or says that the universe is
empty, or else its location is that of a value in the text or in a file that it includes. -/
theorem ofString_blames (s : Sources) (withTransforms : Bool) {text : String} {e : CompileError}
    (h : ofString s withTransforms text = .error e) :
    (∃ fault l, e = .source ⟨.text fault, l⟩) ∨ e = .domain ⟨.emptyUniverse, .unknown⟩ ∨
      s.Shows text e.location := by
  have walk := s.at_ofString text
  unfold ofString ofExpansion Expansion.toUniverse at h
  cases hxs : (s.ofString text).statements with
  | error e' =>
    rw [hxs] at h
    cases h
    rcases walk.of_error hxs with ⟨fault, cause⟩ | here
    · exact .inl ⟨fault, e'.location, by rw [← cause]⟩
    · exact .inr (.inr here)
  | ok xs =>
    rw [hxs] at h
    have compiled := Universe.at_ofUniverse (u := ⟨xs⟩) (walk.of_ok hxs) withTransforms
    change (ofUniverse withTransforms ⟨xs⟩).mapError .domain = .error e at h
    cases hu : ofUniverse withTransforms ⟨xs⟩ with
    | ok c =>
      rw [hu] at h
      simp [Except.mapError] at h
    | error e' =>
      rw [hu] at h
      cases h
      rcases compiled.of_error hu with rfl | here
      · exact .inr (.inl rfl)
      · exact .inr (.inr here)

/-- The file `a` has a domain whose `q` refers to its `p`. -/
def sharing : Sources :=
  ⟨⟨[(⟨["a"]⟩, .file (.text "(define a (domain (product p) (product q x::p)))"))], ⟨"/"⟩⟩, []⟩

/-- Includes the file and takes its `p` away from `q`. -/
def parting : String := "(include_file \"a\") (define b (permute_domain a (exclude p)))"

theorem ofString_parting : ofString sharing false parting =
    .error (.domain ⟨.undefinedType "p", ⟨"/a", 1, 42⟩⟩) := by
  rw [ofString, Evaluation.ofString_eq]
  decide +kernel

/-- What is missing in `b` is blamed on the element that it has from `a`, in the file of `a`. -/
theorem ofString_blames_parting : ofString sharing false parting =
      .error (.domain ⟨.undefinedType "p", ⟨"/a", 1, 42⟩⟩) ∧
    sharing.Shows parting ⟨"/a", 1, 42⟩ := by
  refine ⟨ofString_parting, ?_⟩
  rcases ofString_blames sharing false ofString_parting with ⟨_, _, source⟩ | empty | shown
  · simp at source
  · simp at empty
  · exact shown

end Compilation

end TypeDomains
