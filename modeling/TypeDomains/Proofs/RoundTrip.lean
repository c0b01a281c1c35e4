import TypeDomains.Proofs.Declarations
import TypeDomains.Proofs.Evaluation
import TypeDomains.Proofs.Expressible
import TypeDomains.Proofs.Walk

/-!
# The round trip

An expressible model is read back from its s-expression (`Statement.readsBack`), so the text of
whatever was read is read as the same once more (`written_roundTrip`). No other domain comes back
as it was (`Domain.ofString_written_iff`).
-/

namespace TypeDomains

/-! ## Values up to locations -/

namespace SExpr

variable {e f : SExpr} {es : List SExpr} {a : Atom} {name : String}

theorem symbol?_unlocated (e : SExpr) : e.unlocated.symbol? = e.symbol? := by
  cases e with
  | atom a names l => cases a <;> simp [symbol?]
  | list es names l => simp [symbol?]

theorem head?_unlocated (e : SExpr) : e.unlocated.head? = e.head? := by
  cases e with
  | atom a names l => simp [head?]
  | list es names l => cases es <;> simp [head?, symbol?_unlocated]

theorem annotations_unlocated (e : SExpr) : e.unlocated.annotations = e.annotations := by
  cases e <;> simp [annotations]

theorem eq_atom (h : e.unlocated = .atom a [] .unknown) : ∃ l, e = .atom a [] l := by
  cases e <;> simp_all

theorem eq_list (h : e.unlocated = .row es) :
    ∃ fs l, e = .list fs [] l ∧ fs.map unlocated = es := by
  cases e <;> simp_all [row]

theorem symbol_of_named (h : e.unlocated = .named name) : e.symbol = .ok name := by
  obtain ⟨l, rfl⟩ := eq_atom h
  rfl

theorem eq_form (h : e.unlocated = .row (.named name :: es)) :
    ∃ head fs l, e = .list (head :: fs) [] l ∧ head.symbol = .ok name ∧ fs.map unlocated = es := by
  obtain ⟨all, l, rfl, hall⟩ := eq_list h
  obtain ⟨head, fs, rfl, hhead, hfs⟩ := List.map_eq_cons_iff.1 hall
  exact ⟨head, fs, l, rfl, symbol_of_named hhead, hfs⟩

/-- A form that is known up to locations. -/
theorem form_of_row (h : e.unlocated = .row (.named name :: es)) :
    ∃ fs, e.form = .ok (name, fs) ∧ fs.map unlocated = es := by
  obtain ⟨head, fs, l, rfl, hhead, hfs⟩ := eq_form h
  exact ⟨fs, form_ok.2 ⟨head, [], l, rfl, hhead⟩, hfs⟩

theorem eq_annotated (h : e.unlocated = f.annotated name .unknown) (hf : f.location = .unknown) :
    ∃ g : SExpr, e = g.annotated name g.location ∧ g.unlocated = f := by
  cases f with
  | atom a names l =>
    obtain rfl : l = .unknown := hf
    cases e with
    | atom b names' l' => exact ⟨.atom b names l', by simp_all [annotated, location]⟩
    | list es names' l' => simp [annotated] at h
  | list fs names l =>
    obtain rfl : l = .unknown := hf
    cases e with
    | atom b names' l' => simp [annotated] at h
    | list es names' l' => exact ⟨.list es names l', by simp_all [annotated, location]⟩

end SExpr

/-- Reading what `a` is written as, up to locations, gives `a`, up to locations. -/
def ReadsBack {α : Type} (f : SExpr → Except SourceError α) (g : α → SExpr) (u : α → α) (a : α) :
    Prop :=
  ∀ e, e.unlocated = g a → ∃ b, f e = .ok b ∧ u b = u a

theorem readsBack_mapM {α : Type} {f : SExpr → Except SourceError α} {g : α → SExpr} {u : α → α}
    {as : List α} (h : ∀ a ∈ as, ReadsBack f g u a) {es : List SExpr}
    (hes : es.map SExpr.unlocated = as.map g) : ∃ bs, es.mapM f = .ok bs ∧ bs.map u = as.map u := by
  induction as generalizing es with
  | nil =>
    obtain rfl := List.map_eq_nil_iff.1 hes
    exact ⟨[], rfl, rfl⟩
  | cons a as ih =>
    obtain ⟨e, es, rfl, he, hes⟩ := List.map_eq_cons_iff.1 hes
    obtain ⟨b, hb, hba⟩ := h a List.mem_cons_self e he
    obtain ⟨bs, hbs, hbas⟩ := ih (fun a ha => h a (List.mem_cons_of_mem _ ha)) hes
    refine ⟨b :: bs, ?_, by rw [List.map_cons, List.map_cons, hba, hbas]⟩
    rw [List.mapM_cons]
    exact bind_ok.2 ⟨b, hb, bind_ok.2 ⟨bs, hbs, rfl⟩⟩

/-! ## References and elements -/

theorem TypeRef.readsBack (r : TypeRef) : ReadsBack ofSExpr sexpr unlocated r := by
  intro e he
  unfold sexpr at he
  cases harity : r.arity with
  | required =>
    rw [harity] at he
    obtain ⟨l, rfl⟩ := SExpr.eq_atom he
    exact ⟨⟨r.name, .required, l⟩, rfl, by simp [unlocated, harity]⟩
  | optional =>
    rw [harity] at he
    obtain ⟨head, es, l, rfl, hhead, hes⟩ := SExpr.eq_form he
    obtain ⟨type, rfl, htype⟩ := List.map_eq_singleton_iff.1 hes
    have name := SExpr.symbol_of_named htype
    have read : ofSExpr (.list [head, type] [] l) = .ok ⟨r.name, .optional, l⟩ :=
      ofSExpr_ok.2 (.inr (.inl ⟨head, type, [], l, rfl, hhead, r.name, name, rfl⟩))
    exact ⟨_, read, by simp [unlocated, harity]⟩
  | variadic min =>
    rw [harity] at he
    obtain ⟨head, es, l, rfl, hhead, hes⟩ := SExpr.eq_form he
    obtain ⟨type, rest, rfl, htype, hrest⟩ := List.map_eq_cons_iff.1 hes
    obtain ⟨number, rfl, hnumber⟩ := List.map_eq_singleton_iff.1 hrest
    obtain ⟨m, rfl⟩ := SExpr.eq_atom hnumber
    have name := SExpr.symbol_of_named htype
    have least : minimum (.atom (.integer min.toNat) [] m) = .ok min := minimum_ok.2 ⟨[], m, rfl⟩
    have read : ofSExpr (.list [head, type, .atom (.integer min.toNat) [] m] [] l) =
        .ok ⟨r.name, .variadic min, l⟩ :=
      ofSExpr_ok.2 (.inr (.inr ⟨_, _, _, _, _, rfl, hhead, r.name, name, min, least, rfl⟩))
    exact ⟨_, read, by simp [unlocated, harity]⟩

theorem TypeRef.location_sexpr (r : TypeRef) : r.sexpr.location = .unknown := by
  unfold sexpr
  cases r.arity <;> rfl

theorem TypeRef.annotations_sexpr (r : TypeRef) : r.sexpr.annotations = [] := by
  unfold sexpr
  cases r.arity <;> rfl

/-- A reference does not look at its annotations. -/
theorem TypeRef.ofSExpr_annotated (e : SExpr) (name : String) :
    ofSExpr (e.annotated name e.location) = ofSExpr e := by
  cases e with
  | atom a names l => cases a <;> rfl
  | list es names l => cases es <;> rfl

theorem Element.readsBack {kind : TupleKind} {x : Element} (h : kind = .product → x.tag = "") :
    ReadsBack (ofSExpr kind) (sexpr kind) unlocated x := by
  intro e he
  cases kind with
  | product =>
    obtain ⟨g, rfl, hg⟩ := SExpr.eq_annotated he x.type.location_sexpr
    obtain ⟨r, hr, hrx⟩ := x.type.readsBack g hg
    have names : (g.annotated x.identifier g.location).annotations = [x.identifier] := by
      rw [SExpr.annotations_annotated, ← g.annotations_unlocated, hg, x.type.annotations_sexpr]
    rw [← TypeRef.ofSExpr_annotated g x.identifier] at hr
    exact ⟨_, ofPart_ok.2 ⟨_, names, r, hr, rfl⟩, by simp [unlocated, hrx, h rfl]⟩
  | record =>
    have field {g : SExpr} (hg : g.unlocated = .row [.named x.tag, x.type.sexpr]) :
        ∃ tag type l r, g = .list [tag, type] [] l ∧ tag.symbol = .ok x.tag ∧
          TypeRef.ofSExpr type = .ok r ∧ r.unlocated = x.type.unlocated := by
      obtain ⟨tag, rest, l, rfl, htag, hrest⟩ := SExpr.eq_form hg
      obtain ⟨type, rfl, htype⟩ := List.map_eq_singleton_iff.1 hrest
      obtain ⟨r, hr, hrx⟩ := x.type.readsBack type htype
      exact ⟨tag, type, l, r, rfl, htag, hr, hrx⟩
    unfold sexpr at he
    by_cases same : x.identifier = x.tag
    · simp only [if_pos same] at he
      obtain ⟨tag, type, l, r, rfl, htag, hr, hrx⟩ := field he
      have read : ofField (.list [tag, type] [] l) = .ok ⟨x.tag, x.tag, r, l⟩ :=
        ofField_ok.2 ⟨tag, type, [], l, rfl, x.tag, htag, x.tag, rfl, r, hr, rfl⟩
      exact ⟨_, read, by simp [unlocated, hrx, same]⟩
    · simp only [if_neg same] at he
      obtain ⟨g, rfl, hg⟩ := SExpr.eq_annotated he rfl
      obtain ⟨tag, type, l, r, rfl, htag, hr, hrx⟩ := field hg
      have read : ofField (.list [tag, type] [x.identifier] l) = .ok ⟨x.identifier, x.tag, r, l⟩ :=
        ofField_ok.2 ⟨tag, type, [x.identifier], l, rfl, x.tag, htag, x.identifier, rfl, r, hr, rfl⟩
      exact ⟨_, read, by simp [unlocated, hrx]⟩

/-! ## Types -/

namespace Tuple

theorem variantKind_unlocated (es : List SExpr) :
    variantKind (es.map SExpr.unlocated) = variantKind es := by
  unfold variantKind
  cases es with
  | nil => rfl
  | cons e es =>
    simp only [List.map_cons, List.head?_cons, Option.bind_some, SExpr.head?_unlocated]

theorem head?_sexpr_part (x : Element) :
    ∀ head ∈ (x.sexpr .product).head?, head = "?" ∨ head = "*" := by
  simp only [Element.sexpr, TypeRef.sexpr]
  cases x.type.arity <;> simp [SExpr.annotated, SExpr.named, SExpr.row, SExpr.head?, SExpr.symbol?]

theorem head?_sexpr_field (x : Element) : (x.sexpr .record).head? = some x.tag := by
  simp only [Element.sexpr]
  split <;> rfl

/-- A variant is taken for what it is. -/
theorem variantKind_sexprs {t : Tuple} (h : t.ExpressibleAsVariant) :
    variantKind (t.elements.map (Element.sexpr t.kind)) = t.kind := by
  unfold variantKind
  cases hkind : t.kind with
  | product =>
    cases t.elements with
    | nil => rfl
    | cons x xs =>
      simp only [List.map_cons, List.head?_cons, Option.bind_some]
      cases hhead : (x.sexpr .product).head? with
      | none => rfl
      | some head => exact if_pos (by simpa using head?_sexpr_part x head hhead)
  | record =>
    obtain ⟨x, hx, hne⟩ := h.leads hkind
    obtain ⟨xs, hxs⟩ := List.head?_eq_some_iff.1 hx
    simp only [hxs, List.map_cons, List.head?_cons, Option.bind_some, head?_sexpr_field]
    exact if_neg (by simpa using hne)

/-- Elements are read back behind a tag. -/
theorem ofElements_readsBack {t : Tuple} (h : t.Expressible) {es : List SExpr} (l : Location)
    (hes : es.map SExpr.unlocated = t.elements.map (Element.sexpr t.kind)) :
    ∃ u, ofElements t.tag t.kind es l = .ok u ∧ u.unlocated = t.unlocated := by
  have elements : ∀ x ∈ t.elements,
      ReadsBack (Element.ofSExpr t.kind) (Element.sexpr t.kind) Element.unlocated x :=
    fun x hx => Element.readsBack fun hkind => h.untagged hkind x hx
  obtain ⟨xs, hxs, heq⟩ := readsBack_mapM elements hes
  exact ⟨_, ofElements_ok.2 ⟨xs, hxs, rfl⟩, by simp [unlocated, heq, h.unflagged]⟩

theorem ofVariant_readsBack {t : Tuple} (h : t.ExpressibleAsVariant) :
    ReadsBack ofVariant sexprAsVariant unlocated t := by
  intro e he
  obtain ⟨es, hform, hes⟩ := SExpr.form_of_row he
  obtain ⟨u, hu, hut⟩ := ofElements_readsBack h.toExpressible e.location hes
  have kind : variantKind es = t.kind := by
    rw [← variantKind_unlocated, hes, variantKind_sexprs h]
  exact ⟨u, ofVariant_ok.2 ⟨t.tag, es, hform, kind ▸ hu⟩, hut⟩

end Tuple

theorem DataType.readsBack {t : DataType} (h : t.Expressible) :
    ReadsBack ofSExpr sexpr unlocated t := by
  intro e he
  cases t with
  | builtin b => exact h.elim
  | tuple t =>
    obtain ⟨rest, hform, hrest⟩ := SExpr.form_of_row he
    obtain ⟨tag, es, rfl, htag, hes⟩ := List.map_eq_cons_iff.1 hrest
    obtain ⟨u, hu, hut⟩ := Tuple.ofElements_readsBack h e.location hes
    have read : ofTuple e t.kind (tag :: es) = .ok (.tuple u) :=
      ofTuple_ok.2 ⟨tag, es, rfl, t.tag, SExpr.symbol_of_named htag, u, hu, rfl⟩
    exact ⟨.tuple u, ofSExpr_ok.2 (.inl ⟨t.kind, _, hform, read⟩), by simp [unlocated, hut]⟩
  | sum s =>
    obtain ⟨rest, hform, hrest⟩ := SExpr.form_of_row he
    obtain ⟨tag, es, rfl, htag, hes⟩ := List.map_eq_cons_iff.1 hrest
    obtain ⟨variants, hvariants, heq⟩ := readsBack_mapM
      (fun t ht => Tuple.ofVariant_readsBack (h.variants t ht)) hes
    have read : ofSum e (tag :: es) = .ok (.sum ⟨s.tag, variants, false, e.location⟩) :=
      ofSum_ok.2 ⟨tag, es, rfl, variants, hvariants, s.tag, SExpr.symbol_of_named htag, rfl⟩
    exact ⟨_, ofSExpr_ok.2 (.inr ⟨_, hform, read⟩),
      by simp [unlocated, Sum.unlocated, heq, h.unflagged]⟩

/-! ## Alterations -/

theorem Ident.readsBack (i : Ident) : ReadsBack ofSExpr sexpr unlocated i := by
  intro e he
  exact ⟨_, ofSExpr_ok.2 ⟨i.name, SExpr.symbol_of_named he, rfl⟩, by simp [unlocated]⟩

/-- An alteration that is left out where it has no arguments adds its arguments. -/
theorem readsBack_alteration {σ α : Type} {alter : σ → SExpr → Except SourceError σ}
    {f : SExpr → Except SourceError α} {g : α → SExpr} {u : α → α} {keyword : String}
    (add : σ → List α → σ) (none : ∀ s, add s [] = s)
    (some : ∀ s e es bs, e.form = .ok (keyword, es) → es.mapM f = .ok bs →
      alter s e = .ok (add s bs))
    {as : List α} (h : ∀ a ∈ as, ReadsBack f g u a) {es : List SExpr}
    (hes : es.map SExpr.unlocated = SExpr.alteration keyword (as.map g)) (s : σ) :
    ∃ bs, es.foldlM alter s = .ok (add s bs) ∧ bs.map u = as.map u := by
  unfold SExpr.alteration at hes
  split at hes
  · rename_i hnil
    obtain rfl := List.map_eq_nil_iff.1 hes
    refine ⟨[], ?_, by simp [List.map_eq_nil_iff.1 hnil]⟩
    rw [List.foldlM_nil, none]
    rfl
  · obtain ⟨e, rfl, he⟩ := List.map_eq_singleton_iff.1 hes
    obtain ⟨arguments, hform, harguments⟩ := SExpr.form_of_row he
    obtain ⟨bs, hbs, heq⟩ := readsBack_mapM h harguments
    refine ⟨bs, ?_, heq⟩
    rw [List.foldlM_cons, some s e arguments bs hform hbs]
    rfl

namespace SumChange

/-- The alterations of a sum are read back in the order in which they are written. -/
theorem readsBack {s : SumChange} (h : s.Expressible) (e : SExpr) {es : List SExpr}
    (hes : es.map SExpr.unlocated = .named s.tag ::
      (SExpr.alteration "exclude" (s.removed.map Ident.sexpr) ++
        SExpr.alteration "include" (s.added.map Tuple.sexprAsVariant))) :
    ∃ s', ofArguments e es = .ok s' ∧ s'.unlocated = s.unlocated := by
  obtain ⟨tag, alterations, rfl, htag, halterations⟩ := List.map_eq_cons_iff.1 hes
  obtain ⟨removals, additions, rfl, hremovals, hadditions⟩ := List.map_eq_append_iff.1 halterations
  obtain ⟨removed, hremoved, eqRemoved⟩ := readsBack_alteration
    (fun s is => { s with removed := s.removed ++ is }) (by simp)
    (fun _ _ es is he his => alter_ok.2 (.inl ⟨es, he, is, his, rfl⟩))
    (fun i _ => i.readsBack) hremovals ⟨s.tag, [], [], e.location⟩
  obtain ⟨added, hadded, eqAdded⟩ := readsBack_alteration
    (fun s ts => { s with added := s.added ++ ts }) (by simp)
    (fun _ _ es ts he hts => alter_ok.2 (.inr ⟨es, he, ts, hts, rfl⟩))
    (fun t ht => Tuple.ofVariant_readsBack (h t ht)) hadditions ⟨s.tag, removed, [], e.location⟩
  simp only [List.nil_append] at hremoved hadded
  have all : (removals ++ additions).foldlM alter ⟨s.tag, [], [], e.location⟩ =
      .ok ⟨s.tag, removed, added, e.location⟩ := by
    rw [List.foldlM_append]
    exact bind_ok.2 ⟨_, hremoved, hadded⟩
  exact ⟨_, ofArguments_ok.2 ⟨tag, _, rfl, s.tag, SExpr.symbol_of_named htag, all⟩,
    by simp [unlocated, eqRemoved, eqAdded]⟩

end SumChange

namespace Permutation

theorem alter_with {p : Permutation} {s : SumChange} (h : s.Expressible) {e : SExpr}
    (he : e.unlocated = s.sexpr) :
    ∃ s', p.alter e = .ok { p with sums := p.sums ++ [s'] } ∧ s'.unlocated = s.unlocated := by
  obtain ⟨es, hform, hes⟩ := SExpr.form_of_row he
  obtain ⟨s', hs', heq⟩ := SumChange.readsBack h e hes
  exact ⟨s', alter_ok.2 (.inr (.inr ⟨es, hform, s', hs', rfl⟩)), heq⟩

theorem readsBack_sums {ss : List SumChange} (h : ∀ s ∈ ss, s.Expressible) {es : List SExpr}
    (hes : es.map SExpr.unlocated = ss.map SumChange.sexpr) (p : Permutation) :
    ∃ ts, es.foldlM alter p = .ok { p with sums := p.sums ++ ts } ∧
      ts.map SumChange.unlocated = ss.map SumChange.unlocated := by
  induction ss generalizing es p with
  | nil =>
    obtain rfl := List.map_eq_nil_iff.1 hes
    exact ⟨[], by rw [List.append_nil]; rfl, rfl⟩
  | cons s ss ih =>
    obtain ⟨hs, hss⟩ := List.forall_mem_cons.1 h
    obtain ⟨e, es, rfl, he, hes⟩ := List.map_eq_cons_iff.1 hes
    obtain ⟨s', hs', heq⟩ := alter_with (p := p) hs he
    obtain ⟨ts, hts, heqs⟩ := ih hss hes { p with sums := p.sums ++ [s'] }
    refine ⟨s' :: ts, ?_, by simp [heq, heqs]⟩
    simp only [List.append_assoc, List.singleton_append] at hts
    rw [List.foldlM_cons, hs']
    exact hts

/-- The alterations of a permutation are read back in the order in which they are written. -/
theorem readsBack_alterations {p : Permutation} (h : p.Expressible) {es : List SExpr}
    (l : Location) (hes : es.map SExpr.unlocated =
      SExpr.alteration "exclude" (p.excluded.map Ident.sexpr) ++
        (SExpr.alteration "include" (p.included.map DataType.sexpr) ++
          p.sums.map SumChange.sexpr)) :
    ∃ q, es.foldlM alter ⟨p.tag, p.base, [], [], [], l⟩ = .ok q ∧ q.unlocated = p.unlocated := by
  obtain ⟨exclusions, rest, rfl, hexclusions, hrest⟩ := List.map_eq_append_iff.1 hes
  obtain ⟨inclusions, withs, rfl, hinclusions, hwiths⟩ := List.map_eq_append_iff.1 hrest
  obtain ⟨excluded, hexcluded, eqExcluded⟩ := readsBack_alteration
    (fun q is => { q with excluded := q.excluded ++ is }) (by simp)
    (fun _ _ es is he his => alter_ok.2 (.inl ⟨es, he, is, his, rfl⟩))
    (fun i _ => i.readsBack) hexclusions ⟨p.tag, p.base, [], [], [], l⟩
  obtain ⟨included, hincluded, eqIncluded⟩ := readsBack_alteration
    (fun q ts => { q with included := q.included ++ ts }) (by simp)
    (fun _ _ es ts he hts => alter_ok.2 (.inr (.inl ⟨es, he, ts, hts, rfl⟩)))
    (fun t ht => DataType.readsBack (h.included t ht)) hinclusions
    ⟨p.tag, p.base, excluded, [], [], l⟩
  obtain ⟨sums, hsums, eqSums⟩ := readsBack_sums h.sums hwiths
    ⟨p.tag, p.base, excluded, included, [], l⟩
  simp only [List.nil_append] at hexcluded hincluded hsums
  refine ⟨⟨p.tag, p.base, excluded, included, sums, l⟩, ?_,
    by simp [unlocated, eqExcluded, eqIncluded, eqSums]⟩
  rw [List.foldlM_append]
  refine bind_ok.2 ⟨_, hexcluded, ?_⟩
  rw [List.foldlM_append]
  exact bind_ok.2 ⟨_, hincluded, hsums⟩

end Permutation

/-! ## Statements -/

namespace Statement

theorem readsBack_define {tag : String} {body : SExpr} {x : Statement} {e : SExpr}
    (he : e.unlocated = .row [.named "define", .named tag, body])
    (hbody : ∀ b, b.unlocated = body →
      ∃ y, ofBody tag e.location b = .ok y ∧ y.unlocated = x.unlocated) :
    ∃ y, Form.ofSExpr e = .ok (.statement y) ∧ y.unlocated = x.unlocated := by
  obtain ⟨arguments, hform, harguments⟩ := SExpr.form_of_row he
  obtain ⟨name, rest, rfl, hname, hrest⟩ := List.map_eq_cons_iff.1 harguments
  obtain ⟨b, rfl, hb⟩ := List.map_eq_singleton_iff.1 hrest
  obtain ⟨y, hy, heq⟩ := hbody b hb
  have define : ofDefine e [name, b] = .ok y :=
    ofDefine_ok.2 ⟨name, b, rfl, tag, SExpr.symbol_of_named hname, hy⟩
  exact ⟨y, Form.statement_ok.2 (.inl ⟨_, hform, define⟩), heq⟩

theorem readsBack {x : Statement} (h : x.Expressible) {e : SExpr} (he : e.unlocated = x.sexpr) :
    ∃ y, Form.ofSExpr e = .ok (.statement y) ∧ y.unlocated = x.unlocated := by
  cases x with
  | domain d =>
    apply readsBack_define he
    intro body hbody
    obtain ⟨es, hform, hes⟩ := SExpr.form_of_row hbody
    obtain ⟨types, htypes, heq⟩ := readsBack_mapM (fun t ht => DataType.readsBack (h t ht)) hes
    exact ⟨_, ofBody_ok.2 (.inl ⟨es, hform, types, htypes, rfl⟩),
      by simp [unlocated, Domain.unlocated, heq]⟩
  | permutation p =>
    apply readsBack_define he
    intro body hbody
    obtain ⟨es, hform, hes⟩ := SExpr.form_of_row hbody
    obtain ⟨base, alterations, rfl, hbase, halterations⟩ := List.map_eq_cons_iff.1 hes
    obtain ⟨q, hq, heq⟩ := Permutation.readsBack_alterations h e.location halterations
    have name := SExpr.symbol_of_named hbase
    exact ⟨_, ofBody_ok.2 (.inr ⟨base, alterations, hform, p.base, name, q, hq, rfl⟩),
      by simp [unlocated, heq]⟩
  | transform t =>
    obtain ⟨arguments, hform, harguments⟩ := SExpr.form_of_row he
    obtain ⟨source, rest, rfl, hsource, hrest⟩ := List.map_eq_cons_iff.1 harguments
    obtain ⟨destination, rfl, hdestination⟩ := List.map_eq_singleton_iff.1 hrest
    have transform : ofTransform e [source, destination] =
        .ok (.transform ⟨t.source, t.destination, e.location⟩) :=
      ofTransform_ok.2 ⟨_, _, rfl, _, SExpr.symbol_of_named hsource, _,
        SExpr.symbol_of_named hdestination, rfl⟩
    exact ⟨_, Form.statement_ok.2 (.inr ⟨_, hform, transform⟩),
      by simp [unlocated, Transform.unlocated]⟩

end Statement

/-! ## Universes -/

namespace Sources

variable {s : Sources} {seen : List Route} {fs : List PlacedForm} {ss : List Statement}
  {ps : List Place} {u : Universe}

theorem Gives.expressible (h : s.Gives seen fs ss ps) : ∀ x ∈ ss, x.Expressible := by
  induction h with
  | done => simp
  | statement hf _ ih => exact List.forall_mem_cons.2 ⟨Statement.expressible_of_form hf, ih⟩
  | again _ _ _ ih => exact ih
  | file _ _ _ _ ih => exact ih

theorem expressible_of_toUniverse {x : Expansion} (h : x.toUniverse = .ok u)
    (hx : ∀ ss, x.statements = .ok ss → ∃ seen fs ps, s.Gives seen fs ss ps) : u.Expressible := by
  obtain ⟨ss, hss, rfl⟩ := map_ok.1 h
  obtain ⟨seen, fs, ps, hgives⟩ := hx ss hss
  exact hgives.expressible

theorem expressible_of_ofText {base : Path} {file : Option String} {text : String}
    (h : (s.ofText seen base file text).toUniverse = .ok u) : u.Expressible := by
  apply expressible_of_toUniverse (s := s) h
  intro ss hss
  unfold ofText at hss
  split at hss
  · simp [Expansion.failed] at hss
  · exact ⟨_, _, _, gives_of_expand hss⟩

theorem expressible_of_ofFile {main : Path} (h : (s.ofFile main).toUniverse = .ok u) :
    u.Expressible := by
  apply expressible_of_toUniverse (s := s) h
  intro ss hss
  simp only [ofFile, Expansion.ask] at hss
  split at hss
  · simp [Expansion.failed] at hss
  · simp only [Expansion.read] at hss
    split at hss
    · simp [Expansion.failed] at hss
    · exact ⟨_, _, _, gives_of_expand hss⟩

/-- Forms that spell expressible statements give them, and no file is asked for. -/
theorem gives_of_expressible (s : Sources) (seen : List Route) (base : Path)
    (h : ∀ x ∈ ss, x.Expressible) {es : List SExpr}
    (hes : es.map SExpr.unlocated = ss.map Statement.sexpr) :
    ∃ xs, s.Gives seen (es.map (⟨base, ·⟩)) xs [] ∧
      xs.map Statement.unlocated = ss.map Statement.unlocated := by
  induction ss generalizing es with
  | nil =>
    obtain rfl := List.map_eq_nil_iff.1 hes
    exact ⟨[], .done, rfl⟩
  | cons x ss ih =>
    obtain ⟨hx, hss⟩ := List.forall_mem_cons.1 h
    obtain ⟨e, es, rfl, he, hes⟩ := List.map_eq_cons_iff.1 hes
    obtain ⟨y, hy, heq⟩ := x.readsBack hx he
    obtain ⟨ys, hys, heqs⟩ := ih hss hes
    exact ⟨y :: ys, .statement hy hys, by rw [List.map_cons, List.map_cons, heq, heqs]⟩

/-- What is written of an expressible universe is read as the same universe. -/
theorem ofString_written (s : Sources) (h : u.Expressible) :
    ∃ v, (s.ofString (.ofList u.written)).toUniverse = .ok v ∧ v.same u := by
  obtain ⟨es, hes, hsexpr⟩ := u.ofText_written none
  obtain ⟨xs, hgives, heq⟩ := s.gives_of_expressible [] ⟨"."⟩ h hsexpr
  obtain ⟨hxs, -⟩ := expand_of_gives hgives
  refine ⟨⟨xs⟩, ?_, (Universe.same_iff _ _).2 (congrArg Universe.mk heq)⟩
  simp only [ofString, ofText, hes, Expansion.toUniverse, hxs, Except.map]

/-- **Round trip.** The text of whatever was read, from a text or from files that include each
other, is read as the same universe, whatever files are at hand, and is written as that text. -/
theorem written_roundTrip (s t : Sources) (text : String) (main : Path) (u : Universe)
    (h : (s.ofString text).toUniverse = .ok u ∨ (s.ofFile main).toUniverse = .ok u) :
    ∃ v, (t.ofString (.ofList u.written)).toUniverse = .ok v ∧ v.same u ∧
      v.written = u.written := by
  have expressible : u.Expressible := h.elim expressible_of_ofText expressible_of_ofFile
  obtain ⟨v, hv, same⟩ := t.ofString_written expressible
  exact ⟨v, hv, same, Universe.written_of_same same⟩

/-- A record whose names all need quotes or look like keywords. -/
def quoted : String := "(define '' (domain (record '?' (domain 'it\\'s') 'a\\nb'::('*' 'é'))))"

theorem written_roundTrip_quoted :
    ∃ u v, ((⟨⟨[], ⟨"/"⟩⟩, []⟩ : Sources).ofString quoted).toUniverse = .ok u ∧
      ((⟨⟨[], ⟨"/"⟩⟩, []⟩ : Sources).ofString (.ofList u.written)).toUniverse = .ok v ∧
        v.same u ∧ v.written = u.written := by
  have read : ∃ u, ((⟨⟨[], ⟨"/"⟩⟩, []⟩ : Sources).ofString quoted).toUniverse = .ok u := by
    rw [Evaluation.ofString_eq]
    decide +kernel
  obtain ⟨u, hu⟩ := read
  obtain ⟨v, hv, same, written⟩ :=
    written_roundTrip ⟨⟨[], ⟨"/"⟩⟩, []⟩ ⟨⟨[], ⟨"/"⟩⟩, []⟩ quoted ⟨""⟩ u (.inl hu)
  exact ⟨u, v, hu, hv, same, written⟩

end Sources

/-! ## The image of writing -/

theorem Tuple.expressible_unlocated (t : Tuple) : t.unlocated.Expressible ↔ t.Expressible := by
  have elements : (∀ e ∈ t.unlocated.elements, e.tag = "") ↔ ∀ e ∈ t.elements, e.tag = "" := by
    simp [unlocated, Element.unlocated]
  constructor
  · rintro ⟨unflagged, untagged⟩
    exact ⟨unflagged, fun hkind => elements.1 (untagged hkind)⟩
  · rintro ⟨unflagged, untagged⟩
    exact ⟨unflagged, fun hkind => elements.2 (untagged hkind)⟩

theorem Tuple.expressibleAsVariant_unlocated (t : Tuple) :
    t.unlocated.ExpressibleAsVariant ↔ t.ExpressibleAsVariant := by
  have leads : (∃ e ∈ t.unlocated.elements.head?, e.tag ≠ "?" ∧ e.tag ≠ "*") ↔
      ∃ e ∈ t.elements.head?, e.tag ≠ "?" ∧ e.tag ≠ "*" := by
    cases h : t.elements <;> simp [unlocated, Element.unlocated, h]
  constructor
  · rintro ⟨expressible, lead⟩
    exact ⟨t.expressible_unlocated.1 expressible, fun hkind => leads.1 (lead hkind)⟩
  · rintro ⟨expressible, lead⟩
    exact ⟨t.expressible_unlocated.2 expressible, fun hkind => leads.2 (lead hkind)⟩

theorem Sum.expressible_unlocated (s : Sum) : s.unlocated.Expressible ↔ s.Expressible := by
  have variants : (∀ t ∈ s.unlocated.variants, t.ExpressibleAsVariant) ↔
      ∀ t ∈ s.variants, t.ExpressibleAsVariant := by
    simp [unlocated, Tuple.expressibleAsVariant_unlocated]
  exact ⟨fun h => ⟨h.unflagged, variants.1 h.variants⟩,
    fun h => ⟨h.unflagged, variants.2 h.variants⟩⟩

theorem DataType.expressible_unlocated (t : DataType) :
    t.unlocated.Expressible ↔ t.Expressible := by
  cases t with
  | builtin b => rfl
  | tuple t => exact t.expressible_unlocated
  | sum s => exact s.expressible_unlocated

theorem Domain.expressible_unlocated (d : Domain) : d.unlocated.Expressible ↔ d.Expressible := by
  simp [Expressible, unlocated, DataType.expressible_unlocated]

/-- A universe that only differs in locations from one domain is one domain. -/
theorem Universe.expressible_of_same_domain {u : Universe} {d : Domain}
    (same : u.same ⟨[.domain d]⟩) (h : u.Expressible) : d.Expressible := by
  have statements : u.statements.map Statement.unlocated = [.domain d.unlocated] :=
    congrArg Universe.statements ((same_iff _ _).1 same)
  obtain ⟨x, only, hx⟩ := List.map_eq_singleton_iff.1 statements
  have member : x ∈ u.statements := by simp [only]
  cases x with
  | domain c =>
    have located : c.unlocated = d.unlocated := Statement.domain.inj hx
    rw [← d.expressible_unlocated, ← located, c.expressible_unlocated]
    exact h _ member
  | permutation p => simp [Statement.unlocated] at hx
  | transform t => simp [Statement.unlocated] at hx

/-- **The image of writing.** The text of a domain is read as that domain alone exactly if the
domain is expressible. All other domains are read as something else, or not at all. -/
theorem Domain.ofString_written_iff (s : Sources) (d : Domain) :
    (∃ u, (s.ofString (.ofList d.written)).toUniverse = .ok u ∧ u.same ⟨[.domain d]⟩) ↔
      d.Expressible := by
  constructor
  · rintro ⟨u, read, same⟩
    exact Universe.expressible_of_same_domain same (Sources.expressible_of_ofText read)
  · intro h
    have alone : (⟨[.domain d]⟩ : Universe).Expressible := List.forall_mem_singleton.2 h
    have text : (⟨[.domain d]⟩ : Universe).written = d.written := List.intercalate_singleton
    rw [← text]
    exact s.ofString_written alone

end TypeDomains
