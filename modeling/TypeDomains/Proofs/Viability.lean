import TypeDomains.Proofs.Derivation
import TypeDomains.Proofs.Locality

/-!
# How far a text can be read

The reader stops at the first token that no text can have there, and otherwise at the end
(`SExpr.ofText_derives`). What it holds on the way says how the tokens so far can go on: behind
every state a value can be put and the open lists closed (`Reading.run_completion`).
-/

namespace TypeDomains

/-! ## What the reader holds -/

/-- The annotations that wait are those that these tokens are. -/
inductive Pending.Marks : List Token → Pending → Prop where
  | none : Marks [] .none
  | add {ts p x name l m} : Marks ts p → x.name? = some name →
    Marks (ts ++ [⟨x, l⟩, ⟨.colons, m⟩]) (p.add name l)

namespace Pending.Marks

variable {ts us : List Token} {p : Pending}

theorem spelled {e : SExpr} {es : List SExpr} (h : Marks ts p) (hus : SExpr.Spelled us (e :: es)) :
    SExpr.Spelled (ts ++ us) (e.under p :: es) := by
  induction h generalizing e us with
  | none =>
    rw [SExpr.under_none]
    exact hus
  | add _ hx ih =>
    rw [SExpr.under_add, List.append_assoc]
    exact ih (.annotated hx hus)

theorem eq_nil (h : Marks ts p) (hp : p.names = []) : ts = [] := by
  cases h with
  | none => rfl
  | add _ _ => simp [Pending.add] at hp

end Pending.Marks

/-- The row ends with an annotation. -/
def Dangles (ts : List Token) : Prop :=
  ∃ before t c, ts = before ++ [t, c] ∧ t.lexeme.name?.isSome ∧ c.lexeme = .colons

theorem Pending.Marks.dangles {ts : List Token} {p : Pending} (h : Marks ts p)
    (hp : p.names ≠ []) : Dangles ts := by
  cases h with
  | none => exact absurd rfl hp
  | add _ hx => exact ⟨_, _, _, rfl, by simp [hx], rfl⟩

/-- The fronts of the lists that are open, each with the values around it. -/
inductive OpenList.Fronts : List Token → List OpenList → Prop where
  | nil : Fronts [] []
  | cons {ts us ms p l around os} : Fronts ts os → SExpr.Spelled us around.reverse →
    Pending.Marks ms p →
    Fronts (ts ++ us ++ ms ++ [⟨.opening, l⟩])
      (⟨l, p.names.reverse, p.location.getD l, around⟩ :: os)

namespace Reading

/-- The reader holds what these tokens spell, and none of it is missing. -/
structure Holds (r : Reading) (ts : List Token) : Prop where
  split : ∃ front inner marks, ts = front ++ inner ++ marks ∧ OpenList.Fronts front r.opened ∧
    SExpr.Spelled inner r.values.reverse ∧ Pending.Marks marks r.pending

/-- One move of the reader, and the tokens that it takes. -/
inductive Moves : Reading → List Token → Reading → Prop where
  | atom {r x a l} : x.atom? = some a → Moves r [⟨x, l⟩] (r.atom a l)
  | annotate {r x name l m} : x.name? = some name →
    Moves r [⟨x, l⟩, ⟨.colons, m⟩] (r.annotate name l)
  | openList {r l} : Moves r [⟨.opening, l⟩] (r.openList l)
  | closeList {r l r'} : r.closeList l = .ok r' → Moves r [⟨.closing, l⟩] r'

theorem holds_start : start.Holds [] :=
  ⟨[], [], [], rfl, .nil, .nil, .none⟩

theorem closeList_ok {r r' : Reading} {l : Location} :
    r.closeList l = .ok r' ↔ r.pending.names = [] ∧ ∃ o os, r.opened = o :: os ∧
      ⟨.list r.values.reverse o.annotations o.location :: o.around, os, .none⟩ = r' := by
  unfold closeList
  split
  · rename_i names opened
    simp [names, opened]
  · rename_i apart
    simp only [reduceCtorEq, false_iff, not_and]
    rintro names ⟨o, os, opened, -⟩
    exact apart o os names opened

theorem Holds.move {r r' : Reading} {ts us : List Token} (h : r.Holds ts) (move : Moves r us r') :
    r'.Holds (ts ++ us) := by
  obtain ⟨front, inner, marks, rfl, hfront, hinner, hmarks⟩ := h
  cases move with
  | @atom x a l hx =>
    refine ⟨front, inner ++ (marks ++ [⟨x, l⟩]), [], by simp, hfront, ?_, .none⟩
    simpa [Reading.atom, SExpr.under] using hinner.append (hmarks.spelled (.atom hx .nil))
  | @annotate x name l m hx =>
    exact ⟨front, inner, marks ++ [⟨x, l⟩, ⟨.colons, m⟩], by simp, hfront, hinner, hmarks.add hx⟩
  | @openList l =>
    exact ⟨front ++ inner ++ marks ++ [⟨.opening, l⟩], [], [], by simp,
      .cons hfront hinner hmarks, .nil, .none⟩
  | @closeList l _ hclose =>
    obtain ⟨names, o, os, opened, rfl⟩ := closeList_ok.1 hclose
    obtain rfl := hmarks.eq_nil names
    rw [opened] at hfront
    cases hfront with
    | @cons ts us ms p k around _ hts hus hms =>
      refine ⟨ts, us ++ (ms ++ (⟨.opening, k⟩ :: inner ++ [⟨.closing, l⟩])), [], by simp, hts, ?_,
        .none⟩
      simpa [SExpr.under] using hus.append (hms.spelled (.list hinner .nil))

/-- At the end nothing is missing, or there is an annotation or an open list. -/
theorem Holds.finish_ok {r : Reading} {ts : List Token} {stop : Location} {es : List SExpr}
    (h : r.Holds ts) (hr : r.finish stop = .ok es) : SExpr.Spelled ts es := by
  obtain ⟨front, inner, marks, rfl, hfront, hinner, hmarks⟩ := h
  unfold finish at hr
  split at hr
  · rename_i names opened
    obtain rfl := hmarks.eq_nil names
    rw [opened] at hfront
    cases hfront
    obtain rfl := Except.ok.inj hr
    simpa using hinner
  · simp at hr
  · simp at hr

/-! ## A whole run -/

/-- A state that the reader comes to, and the tokens it has taken then. -/
inductive Reaches : Reading → List Token → Reading → Prop where
  | refl {r} : Reaches r [] r
  | move {r r' r'' ts us} : Moves r ts r' → Reaches r' us r'' → Reaches r (ts ++ us) r''

theorem Reaches.holds {r r' : Reading} {ts us : List Token} (h : Reaches r us r')
    (hr : r.Holds ts) : r'.Holds (ts ++ us) := by
  induction h generalizing ts with
  | refl => simpa using hr
  | move hmove _ ih =>
    rw [← List.append_assoc]
    exact ih (hr.move hmove)

/-- The complaint about a token that cannot stand where it does. -/
inductive Unexpected : Token → TextError → Prop where
  | closing {l} : Unexpected ⟨.closing, l⟩ ⟨.unexpectedClosing, l⟩
  | colons {l} : Unexpected ⟨.colons, l⟩ ⟨.unexpectedColons, l⟩

theorem run_literal {x : Lexeme} {a : Atom} {l stop : Location} {r : Reading} {ts : List Token}
    (hx : x.atom? = some a) (hname : x.name? = none) :
    r.run stop (⟨x, l⟩ :: ts) = (r.atom a l).run stop ts := by
  cases x <;> simp only [Lexeme.atom?, Option.some.injEq, reduceCtorEq] at hx
  all_goals
    simp only [Lexeme.name?, reduceCtorEq] at hname
    try subst hx; rw [run]

theorem closeList_error {r : Reading} {l : Location} {e : TextError}
    (h : r.closeList l = .error e) : Unexpected ⟨.closing, l⟩ e := by
  unfold closeList at h
  split at h
  · simp at h
  · obtain rfl := Except.error.inj h
    exact .closing

/-- The reader makes a move over the first of the tokens. Of those behind it only knows the
first. -/
def MovesOver (r : Reading) (ts : List Token) : Prop :=
  ∃ us vs r', ts = us ++ vs ∧ vs.length < ts.length ∧ Moves r us r' ∧
    ∀ stop ws, ws.head? = vs.head? → r.run stop (us ++ ws) = r'.run stop ws

theorem movesOver_atom {r : Reading} {x : Lexeme} {a : Atom} {l : Location} {ts : List Token}
    (hx : x.atom? = some a) (plain : x.name? = none ∨ NoColons ts) :
    r.MovesOver (⟨x, l⟩ :: ts) := by
  refine ⟨[⟨x, l⟩], ts, _, rfl, by simp, .atom hx, fun stop ws head => ?_⟩
  rcases plain with hname | plain
  · exact run_literal hx hname
  · have plain : NoColons ws := by rwa [NoColons, head]
    exact run_atom hx plain

/-- A name is an annotation or a value, by what stands behind it. -/
theorem movesOver_name {r : Reading} {x : Lexeme} {name : String} {l : Location} {ts : List Token}
    (hname : x.name? = some name) (hx : x.atom? = some (.symbol name)) :
    r.MovesOver (⟨x, l⟩ :: ts) := by
  by_cases plain : NoColons ts
  · exact movesOver_atom hx (.inr plain)
  · obtain ⟨⟨_, m⟩, hc, rfl⟩ := by simpa [NoColons] using plain
    obtain ⟨vs, rfl⟩ := List.head?_eq_some_iff.1 hc
    have fewer : vs.length < vs.length + 1 + 1 := by omega
    exact ⟨[⟨x, l⟩, ⟨.colons, m⟩], vs, _, rfl, fewer, .annotate hname,
      fun stop ws _ => run_annotation hname⟩

/-- The reader makes a move, or it stops at the first token, whatever stands behind it. -/
theorem run_cons (r : Reading) (t : Token) (ts : List Token) :
    r.MovesOver (t :: ts) ∨
      ∃ e, Unexpected t e ∧ ∀ stop ws, r.run stop (t :: ws) = .error e := by
  obtain ⟨x, l⟩ := t
  cases x with
  | opening =>
    exact .inl ⟨[⟨.opening, l⟩], ts, _, rfl, by simp, .openList, fun stop ws _ => by
      rw [List.singleton_append, run]⟩
  | closing =>
    cases hclose : r.closeList l with
    | ok r' =>
      exact .inl ⟨[⟨.closing, l⟩], ts, r', rfl, by simp, .closeList hclose, fun stop ws _ => by
        rw [List.singleton_append, run, hclose]⟩
    | error e => exact .inr ⟨e, closeList_error hclose, fun stop ws => by rw [run, hclose]⟩
  | colons => exact .inr ⟨_, .colons, fun stop ws => by rw [run]⟩
  | symbol name => exact .inl (movesOver_name rfl rfl)
  | quoted name => exact .inl (movesOver_name rfl rfl)
  | operator name => exact .inl (movesOver_atom rfl (.inl rfl))
  | integer value => exact .inl (movesOver_atom rfl (.inl rfl))
  | string text => exact .inl (movesOver_atom rfl (.inl rfl))

/-- The reader comes to the end of the tokens, or to one that it stops at, whatever stands behind
it. -/
theorem run_reaches (r : Reading) (ts : List Token) :
    (∃ r', Reaches r ts r' ∧ ∀ stop, r.run stop ts = r'.finish stop) ∨
    ∃ before t after r' e, ts = before ++ t :: after ∧ Reaches r before r' ∧ Unexpected t e ∧
      ∀ stop rest, r.run stop (before ++ t :: rest) = .error e := by
  induction hn : ts.length using Nat.strong_induction_on generalizing r ts with
  | _ n ih =>
  cases ts with
  | nil => exact .inl ⟨r, .refl, fun stop => by rw [run]⟩
  | cons t ts =>
    rcases run_cons r t ts with ⟨us, vs, r', hts, hlength, hmove, hrun⟩ | ⟨e, ht, hrun⟩
    · rw [hts]
      rcases ih _ (hn ▸ hlength) r' vs rfl with
        ⟨r'', hreach, hend⟩ | ⟨before, u, after, r'', e, rfl, hreach, hu, hstop⟩
      · exact .inl ⟨r'', .move hmove hreach, fun stop => by rw [hrun stop vs rfl, hend]⟩
      · refine .inr ⟨us ++ before, u, after, r'', e, by simp, .move hmove hreach, hu, ?_⟩
        intro stop rest
        have head : (before ++ u :: rest).head? = (before ++ u :: after).head? := by
          cases before <;> rfl
        rw [List.append_assoc, hrun stop _ head, hstop]
    · exact .inr ⟨[], t, ts, r, e, rfl, .refl, ht, hrun⟩

theorem Holds.run_ok {r : Reading} {ts us : List Token} {stop : Location} {es : List SExpr}
    (h : r.Holds ts) (hrun : r.run stop us = .ok es) : SExpr.Spelled (ts ++ us) es := by
  rcases run_reaches r us with ⟨r', hreach, hend⟩ | ⟨before, t, after, r', e, rfl, -, -, hstop⟩
  · rw [hend] at hrun
    exact (hreach.holds h).finish_ok hrun
  · simp [hstop] at hrun

/-! ## Going on -/

/-- What makes the tokens so far a row of values. -/
def completion (r : Reading) : List Lexeme :=
  (if r.pending.names = [] then [] else [.symbol "x"]) ++ r.opened.map fun _ => .closing

theorem run_closings {r : Reading} {ts : List Token} (stop : Location)
    (hr : r.pending.names = []) (h : ts.map Token.lexeme = r.opened.map fun _ => .closing) :
    ∃ es, r.run stop ts = .ok es := by
  obtain ⟨values, opened, pending⟩ := r
  induction opened generalizing ts values pending with
  | nil =>
    obtain rfl : ts = [] := by simpa using h
    exact ⟨values.reverse, by simp_all [run, finish]⟩
  | cons o os ih =>
    obtain ⟨⟨_, l⟩, us, rfl, rfl, hus⟩ := List.map_eq_cons_iff.1 h
    obtain ⟨es, hes⟩ := ih _ .none rfl hus
    refine ⟨es, ?_⟩
    rw [run, closeList_ok.2 ⟨hr, o, os, rfl, rfl⟩]
    exact hes

theorem run_completion {r : Reading} {ts : List Token} (stop : Location)
    (h : ts.map Token.lexeme = r.completion) : ∃ es, r.run stop ts = .ok es := by
  by_cases hr : r.pending.names = []
  · exact run_closings stop hr (by simpa [completion, hr] using h)
  · rw [completion, if_neg hr, List.singleton_append] at h
    obtain ⟨⟨_, l⟩, us, rfl, rfl, hus⟩ := List.map_eq_cons_iff.1 h
    have closings : ∀ t ∈ us, t.lexeme = .closing := by
      simpa using List.forall_mem_map.1 (hus ▸ by simp : ∀ x ∈ us.map Token.lexeme, x = .closing)
    have plain : NoColons us := by
      intro t ht
      simp [closings t (List.mem_of_mem_head? ht)]
    rw [run_atom rfl plain]
    exact run_closings stop rfl hus

theorem completion_ne_nil {r : Reading} {stop : Location} {e : TextError}
    (h : r.finish stop = .error e) : r.completion ≠ [] := by
  unfold finish at h
  split at h
  · simp at h
  · simp [completion, *]
  · simp [completion, *]

theorem exists_text (r : Reading) : ∃ v, Ends v ∧ Scans v r.completion := by
  have closings : ∀ os : List OpenList, Ends (os.map fun _ => ')') ∧
      Scans (os.map fun _ => ')') (os.map fun _ => .closing) := by
    intro os
    induction os with
    | nil => exact ⟨ends_nil, scans_nil⟩
    | cons o os ih =>
      rw [List.map_cons, List.map_cons]
      exact ⟨ends_cons.2 (by decide), ih.2.token (by decide) (by decide) fun l =>
        ⟨_, by simp [Lexeme.read]; rfl⟩⟩
  obtain ⟨ends, scans⟩ := closings r.opened
  unfold completion
  split
  · exact ⟨_, ends, scans⟩
  · have value : Lexes ['x'] [.symbol "x"] := lexes_plain (by decide)
    exact ⟨' ' :: _, ends_cons.2 (by decide), (value _ _ ends scans).blank (by decide)⟩

end Reading

/-! ## Texts -/

/-- The tokens are those of values in a row. -/
def Sentence (ts : List Token) : Prop := ∃ ds : List Derivation, ds.flatMap Derivation.tokens = ts

theorem sentence_iff {ts : List Token} : Sentence ts ↔ ∃ es, SExpr.Spelled ts es := by
  constructor
  · rintro ⟨ds, hds⟩
    exact ⟨_, Derivation.spelled_iff.2 ⟨ds, hds, rfl⟩⟩
  · rintro ⟨es, hes⟩
    obtain ⟨ds, hds, -⟩ := Derivation.spelled_iff.1 hes
    exact ⟨ds, hds⟩

/-- Some text of the file has these tokens in front of those, and they are values in a row. -/
def Continues (file : Option String) (ts rest : List Token) : Prop :=
  ∃ text stop, Tokens.ofText file text = .ok ⟨ts ++ rest, stop⟩ ∧ Sentence (ts ++ rest)

/-- Why a row of tokens is no row of values, and where this shows. -/
inductive Blamed (file : Option String) (ts : Tokens) : TextError → Prop where
  /-- Up to the token all could still have become values, with it nothing can. -/
  | unexpected {before t after e} : ts.tokens = before ++ t :: after → Reading.Unexpected t e →
    (∃ rest, Continues file before rest) → (∀ rest, ¬Sentence (before ++ t :: rest)) →
    Blamed file ts e
  | dangling : Dangles ts.tokens → (∃ rest ≠ [], Continues file ts.tokens rest) →
    Blamed file ts ⟨.danglingAnnotations, ts.stop⟩
  /-- Behind the parenthesis stand values only, so it is the innermost one that is open. -/
  | openList {before l inner} : ¬Dangles ts.tokens →
    ts.tokens = before ++ ⟨.opening, l⟩ :: inner → Sentence inner →
    (∃ rest ≠ [], Continues file ts.tokens rest) → Blamed file ts ⟨.openList, l⟩

theorem Reading.Holds.continues {r : Reading} {file : Option String} {text : String}
    {before after : List Token} {stop : Location}
    (h : Tokens.ofText file text = .ok ⟨before ++ after, stop⟩) (hr : r.Holds before) :
    ∃ rest, rest.map Token.lexeme = r.completion ∧ Continues file before rest := by
  obtain ⟨w, -, front⟩ := Tokens.scan_front h
  obtain ⟨v, ends, scans⟩ := r.exists_text
  obtain ⟨⟨tokens, stop'⟩, htokens, rest, rfl, lexemes⟩ := front v _ ends scans
  obtain ⟨es, hes⟩ := r.run_completion stop' lexemes
  refine ⟨rest, lexemes, .ofList (w ++ v), stop', ?_, sentence_iff.2 ⟨es, hr.run_ok hes⟩⟩
  rw [Tokens.ofText, String.toList_ofList]
  exact htokens

/-! ## Where the reader stops -/

theorem last_ne_colons {ts : List Token} {es : List SExpr} (h : SExpr.Spelled ts es) :
    ∀ t ∈ ts.getLast?, t.lexeme ≠ .colons := by
  induction h with
  | nil => simp
  | @atom x a l ts es hx _ ih =>
    cases ts with
    | nil =>
      intro t ht
      obtain rfl : ⟨x, l⟩ = t := by simpa using ht
      rintro rfl
      simp [Lexeme.atom?] at hx
    | cons t ts => simpa using ih
  | @list l m ts us es fs _ _ _ ih =>
    rw [List.getLast?_append_of_ne_nil _ (by simp)]
    cases us with
    | nil => simp
    | cons t us => simpa using ih
  | @annotated x name l m ts e es _ hes ih =>
    cases ts with
    | nil => cases hes
    | cons t ts => simpa using ih

theorem not_dangles {ts : List Token} (h : ∀ t ∈ ts.getLast?, t.lexeme ≠ .colons) :
    ¬Dangles ts := by
  rintro ⟨before, t, c, rfl, -, hc⟩
  exact h c (by simp) hc

namespace Reading

theorem Holds.of_dangling {r : Reading} {ts : List Token} {stop : Location} {e : TextError}
    (h : r.Holds ts) (hr : r.pending.names ≠ []) (hstop : r.finish stop = .error e) :
    Dangles ts ∧ e = ⟨.danglingAnnotations, stop⟩ := by
  obtain ⟨front, inner, marks, rfl, -, -, hmarks⟩ := h
  obtain ⟨before, t, c, rfl, ht, hc⟩ := hmarks.dangles hr
  refine ⟨⟨front ++ inner ++ before, t, c, by simp, ht, hc⟩, ?_⟩
  unfold finish at hstop
  split at hstop
  · exact absurd ‹_› hr
  · exact absurd ‹_› hr
  · exact (Except.error.inj hstop).symm

theorem Holds.of_open {r : Reading} {ts : List Token} {stop : Location} {e : TextError}
    (h : r.Holds ts) (hr : r.pending.names = []) (hstop : r.finish stop = .error e) :
    ∃ before l inner, ¬Dangles ts ∧ ts = before ++ ⟨.opening, l⟩ :: inner ∧ Sentence inner ∧
      e = ⟨.openList, l⟩ := by
  obtain ⟨front, inner, marks, rfl, hfront, hinner, hmarks⟩ := h
  obtain rfl := hmarks.eq_nil hr
  unfold finish at hstop
  split at hstop
  · simp at hstop
  · rename_i o os _ hopened
    rw [hopened] at hfront
    cases hfront with
    | @cons ts us ms p l around _ =>
      refine ⟨ts ++ us ++ ms, l, inner, ?_, by simp, sentence_iff.2 ⟨_, hinner⟩,
        (Except.error.inj hstop).symm⟩
      refine not_dangles fun t ht => ?_
      cases inner with
      | nil =>
        obtain rfl : _ = t := by simpa using ht
        simp
      | cons u inner => exact last_ne_colons hinner t (by simpa using ht)
  · rename_i names
    simp [hr] at names

end Reading

/-- Reading goes wrong where the row of tokens does. -/
theorem SExpr.blamed_of_ofTokens {file : Option String} {text : String} {ts : Tokens}
    {e : TextError} (h : Tokens.ofText file text = .ok ts) (he : ofTokens ts = .error e) :
    Blamed file ts e := by
  obtain ⟨ts, stop⟩ := ts
  rcases Reading.run_reaches .start ts with
    ⟨r, hreach, hend⟩ | ⟨before, t, after, r, e', rfl, hreach, ht, hstop⟩
  · have holds : r.Holds ts := hreach.holds Reading.holds_start
    rw [ofTokens, hend] at he
    have whole : Tokens.ofText file text = .ok ⟨ts ++ [], stop⟩ := by rwa [List.append_nil]
    obtain ⟨rest, lexemes, goes⟩ := holds.continues whole
    have proper : rest ≠ [] := by
      rintro rfl
      exact Reading.completion_ne_nil he lexemes.symm
    by_cases hr : r.pending.names = []
    · obtain ⟨before, l, inner, dangles, hts, hinner, rfl⟩ := holds.of_open hr he
      exact .openList dangles hts hinner ⟨rest, proper, goes⟩
    · obtain ⟨dangles, rfl⟩ := holds.of_dangling hr he
      exact .dangling dangles ⟨rest, proper, goes⟩
  · have holds : r.Holds before := hreach.holds Reading.holds_start
    rw [ofTokens, hstop] at he
    obtain rfl := Except.error.inj he
    obtain ⟨rest, -, goes⟩ := holds.continues h
    refine .unexpected rfl ht ⟨rest, goes⟩ fun rest sentence => ?_
    obtain ⟨es, hes⟩ := sentence_iff.1 sentence
    have read : ofTokens ⟨before ++ t :: rest, stop⟩ = .ok es := Spelled.ofTokens hes
    simp [ofTokens, hstop] at read

/-- **What a text is read as.** Its values are what its tokens derive, which they do in one way at
most, and an annotation is never a value. Where they derive nothing, the complaint stands at the
first token with which no text could go on, or else says why the end comes too early. -/
theorem SExpr.ofText_derives {file : Option String} {text : String} {ts : Tokens}
    (h : Tokens.ofText file text = .ok ts) :
    (∀ es, SExpr.ofText file text = .ok es ↔
      ∃ ds : List Derivation, ds.flatMap Derivation.tokens = ts.tokens ∧
        ds.map Derivation.value = es) ∧
    (∀ ds ds' : List Derivation, ds.flatMap Derivation.tokens = ts.tokens →
      ds'.flatMap Derivation.tokens = ts.tokens → ds = ds') ∧
    (∀ ds : List Derivation, ds.flatMap Derivation.tokens = ts.tokens → ∀ before p q after,
      ds.flatMap Derivation.parts = before ++ p :: q :: after → q.1.lexeme = .colons →
        p.2 = .mark) ∧
    ∀ e, SExpr.ofText file text = .error e → Blamed file ts e := by
  have read : SExpr.ofText file text = ofTokens ts := by
    rw [ofText, h]
    rfl
  rw [read]
  refine ⟨fun es => ?_, ?_, ?_, fun e => blamed_of_ofTokens h⟩
  · rw [← Derivation.spelled_iff]
    constructor
    · intro hes
      simpa using Reading.holds_start.run_ok hes
    · exact Spelled.ofTokens
  · intro ds ds' hds hds'
    exact Derivation.unique (hds.trans hds'.symm)
  · intro ds _ before p q after
    exact Derivation.role_of_colons

/-- The inner list of `(a (b` is the one that is blamed. -/
theorem SExpr.ofText_derives_unclosed :
    ∃ ts, Tokens.ofText none "(a (b" = .ok ts ∧ Blamed none ts ⟨.openList, ⟨none, 1, 4⟩⟩ := by
  have scanned : Tokens.ofText none "(a (b" = .ok ⟨[⟨.opening, ⟨none, 1, 1⟩⟩,
      ⟨.symbol "a", ⟨none, 1, 2⟩⟩, ⟨.opening, ⟨none, 1, 4⟩⟩, ⟨.symbol "b", ⟨none, 1, 5⟩⟩],
      ⟨none, 1, 6⟩⟩ := by
    decide +kernel
  refine ⟨_, scanned, (ofText_derives scanned).2.2.2 _ ?_⟩
  rw [ofText, scanned]
  rfl

end TypeDomains
