import Mathlib.Data.List.Induction
import Mathlib.Data.List.Infix
import TypeDomains.NameTable
import TypeDomains.Proofs.Lists

/-!
# Frames

What a name table knows after any row of actions: each frame knows what was bound in it since it
was opened, whatever happened in the frames on top of it meanwhile (`NameTable.run_frames`).
-/

namespace TypeDomains.NameTable

/-! ## Runs of a name table -/

inductive Action where
  | push
  | pop
  | define (b : Binding)

/-- A binding that is refused leaves the table as it is. -/
def step (t : NameTable) : Action → NameTable
  | .push => t.push
  | .pop => t.pop
  | .define b => (t.define? b).getD t

/-- A new table after these actions. -/
def run (as : List Action) : NameTable := as.foldl step empty

def Action.nest (n : Nat) : Action → Nat
  | push => n + 1
  | pop => n - 1
  | define _ => n

/-- The number of frames that are open on top of the domain's. -/
def depth (as : List Action) : Nat := as.foldl Action.nest 0

/-- The frame that is innermost behind `before` is not closed by any action of `after`, and it is
the innermost one again behind them. -/
def Keeps (before after : List Action) : Prop :=
  depth (before ++ after) = depth before ∧ ∀ u, u <+: after → depth before ≤ depth (before ++ u)

/-- The table goes on with the binding. -/
def Accepts (as : List Action) (b : Binding) : Prop := ((run as).define? b).isSome

variable {as before after : List Action} {a : Action} {b : Binding} {k : Nat} {name : String}

theorem run_concat (as : List Action) (a : Action) : run (as ++ [a]) = (run as).step a := by
  simp [run]

theorem depth_concat (as : List Action) (a : Action) : depth (as ++ [a]) = a.nest (depth as) := by
  simp [depth]

/-! ## What was bound in a frame -/

/-- Behind `before`, with `k` frames open on top of the domain's, the innermost frame took the
binding, and none of the actions since has closed it. -/
def Entered (as : List Action) (k : Nat) (b : Binding) : Prop :=
  ∃ before after, as = before ++ .define b :: after ∧ depth before = k ∧ Accepts before b ∧
    ∀ u, u <+: .define b :: after → k ≤ depth (before ++ u)

theorem Entered.le_depth (h : Entered as k b) : k ≤ depth as := by
  obtain ⟨before, after, rfl, -, -, open_⟩ := h
  exact open_ _ List.prefix_rfl

theorem entered_concat (hk : k ≤ depth (as ++ [a])) :
    Entered (as ++ [a]) k b ↔ Entered as k b ∨ a = .define b ∧ depth as = k ∧ Accepts as b := by
  constructor
  · rintro ⟨before, after, split, level, accepted, open_⟩
    rcases concat_eq_iff.1 split with ⟨rfl, rfl, rfl⟩ | ⟨rest, rfl, rfl⟩
    · exact .inr ⟨rfl, level, accepted⟩
    · refine .inl ⟨before, rest, rfl, level, accepted, fun u hu => open_ u (hu.trans ?_)⟩
      rw [← List.cons_append]
      exact List.prefix_append _ _
  · rintro (⟨before, after, rfl, level, accepted, open_⟩ | ⟨rfl, rfl, accepted⟩)
    · refine ⟨before, after ++ [a], by simp, level, accepted, fun u hu => ?_⟩
      rw [← List.cons_append, List.prefix_concat_iff] at hu
      rcases hu with rfl | hu
      · simpa using hk
      · exact open_ u hu
    · refine ⟨as, [], rfl, rfl, accepted, fun u hu => ?_⟩
      rcases List.prefix_cons_iff.1 hu with rfl | ⟨v, rfl, hv⟩
      · simp
      · obtain rfl := List.prefix_nil.1 hv
        rw [depth_concat]
        exact Nat.le_refl _

/-! ## The frames of a table -/

/-- All frames, the innermost first. -/
def frames (t : NameTable) : List Frame := t.inner ++ [t.domain]

/-- Each frame holds what was entered in it. It has as many frames below it as were open when it
was opened. -/
def Hold (as : List Action) : List Frame → Prop
  | [] => True
  | f :: fs => (∀ b, b ∈ f ↔ Entered as fs.length b) ∧ Hold as fs

theorem Hold.of_same {as as' : List Action} {fs : List Frame} (h : Hold as fs)
    (same : ∀ k < fs.length, ∀ b, Entered as' k b ↔ Entered as k b) : Hold as' fs := by
  induction fs with
  | nil => trivial
  | cons f fs ih =>
    refine ⟨fun b => ?_, ih h.2 fun k hk => same k (hk.trans (Nat.lt_succ_self _))⟩
    rw [h.1 b, same fs.length (Nat.lt_succ_self _) b]

/-- Only the innermost frame decides about a binding, and only that frame changes. -/
theorem define?_cases (t : NameTable) (b : Binding) : ∃ f fs, t.frames = f :: fs ∧
    (binds f b.name = true ∧ t.define? b = none ∨
      binds f b.name = false ∧ ∃ u, t.define? b = some u ∧ u.frames = (b :: f) :: fs ∧
        u.inner.length = t.inner.length) := by
  obtain ⟨domain, inner⟩ := t
  cases inner with
  | nil =>
    refine ⟨domain, [], rfl, ?_⟩
    cases h : binds domain b.name with
    | true => exact .inl ⟨rfl, by simp [define?, h]⟩
    | false => exact .inr ⟨rfl, ⟨b :: domain, []⟩, by simp [define?, h], rfl, rfl⟩
  | cons f fs =>
    refine ⟨f, fs ++ [domain], rfl, ?_⟩
    cases h : binds f b.name with
    | true => exact .inl ⟨rfl, by simp [define?, h]⟩
    | false => exact .inr ⟨rfl, ⟨domain, (b :: f) :: fs⟩, by simp [define?, h], rfl, rfl⟩

theorem pop_eq_self {t : NameTable} (h : t.inner = []) : t.pop = t := by
  rw [pop, h, List.tail_nil, ← h]

theorem frames_push (t : NameTable) : t.push.frames = [] :: t.frames := rfl

theorem binds_iff {f : Frame} : binds f name ↔ ∃ b ∈ f, b.name = name := by
  simp [binds]

/-- Of the frames that stay open, only the innermost one can have got something new. -/
theorem entered_unchanged (hk : k ≤ a.nest (depth as)) (other : ∀ b, a = .define b → depth as ≠ k)
    (b : Binding) : Entered (as ++ [a]) k b ↔ Entered as k b := by
  rw [entered_concat (by rwa [depth_concat])]
  exact or_iff_left fun ⟨defines, here, _⟩ => other b defines here

/-- The table has a frame for each that is open, and each holds what was entered in it. -/
structure Faithful (as : List Action) : Prop where
  count : (run as).inner.length = depth as
  hold : Hold as (run as).frames

theorem Faithful.length_frames (h : Faithful as) : (run as).frames.length = depth as + 1 := by
  rw [frames, List.length_append, h.count, List.length_singleton]

theorem Faithful.push (h : Faithful as) : Faithful (as ++ [.push]) := by
  refine ⟨?_, ?_⟩ <;> rw [run_concat, step]
  · rw [depth_concat]
    exact congrArg Nat.succ h.count
  · rw [frames_push]
    refine ⟨fun b => ?_, h.hold.of_same fun k hk => entered_unchanged ?_ (by simp)⟩
    · rw [h.length_frames, entered_unchanged (k := depth as + 1) (Nat.le_refl _) (by simp)]
      refine iff_of_false List.not_mem_nil fun entered => ?_
      exact absurd entered.le_depth (Nat.not_succ_le_self _)
    · rw [h.length_frames] at hk
      exact Nat.le_of_lt hk

theorem Faithful.pop (h : Faithful as) : Faithful (as ++ [.pop]) := by
  cases inner : (run as).inner with
  | nil =>
    have bare : depth as = 0 := by rw [← h.count, inner, List.length_nil]
    refine ⟨?_, ?_⟩ <;> rw [run_concat, step, pop_eq_self inner]
    · rw [h.count, depth_concat, bare, Action.nest]
    · refine h.hold.of_same fun k hk => entered_unchanged ?_ (by simp)
      rw [h.length_frames, bare] at hk
      exact (Nat.lt_one_iff.1 hk).trans_le (Nat.zero_le _)
  | cons f fs =>
    have deep : depth as = fs.length + 1 := by rw [← h.count, inner, List.length_cons]
    have hold := h.hold
    rw [frames, inner] at hold
    refine ⟨?_, ?_⟩ <;> rw [run_concat, step, NameTable.pop]
    · rw [inner, List.tail_cons, depth_concat, deep, Action.nest, Nat.add_sub_cancel]
    · rw [frames, inner, List.tail_cons]
      refine hold.2.of_same fun k hk => entered_unchanged ?_ (by simp)
      rw [deep, Action.nest, Nat.add_sub_cancel]
      simpa [Nat.lt_succ_iff] using hk

theorem Faithful.define (h : Faithful as) (b : Binding) : Faithful (as ++ [.define b]) := by
  obtain ⟨f, fs, hframes, decided⟩ := define?_cases (run as) b
  have count : fs.length = depth as := by simpa [hframes] using h.length_frames
  have hold := h.hold
  rw [hframes] at hold
  have below : Hold (as ++ [.define b]) fs := hold.2.of_same fun k hk =>
    entered_unchanged (by rw [← count]; exact Nat.le_of_lt hk) fun _ _ => by omega
  have here (c : Binding) : Entered (as ++ [.define b]) fs.length c ↔
      c ∈ f ∨ c = b ∧ Accepts as b := by
    rw [entered_concat (by rw [depth_concat, count]; exact Nat.le_refl _), hold.1]
    refine or_congr_right ⟨?_, ?_⟩
    · rintro ⟨defines, -, accepted⟩
      obtain rfl := Action.define.inj defines
      exact ⟨rfl, accepted⟩
    · rintro ⟨rfl, accepted⟩
      exact ⟨rfl, count.symm, accepted⟩
  refine ⟨?_, ?_⟩ <;> rw [run_concat, step]
  · rw [depth_concat, Action.nest, ← h.count]
    rcases decided with ⟨-, refused⟩ | ⟨-, u, accepted, -, inner⟩
    · rw [refused, Option.getD_none]
    · rw [accepted, Option.getD_some, inner]
  · rcases decided with ⟨-, refused⟩ | ⟨-, u, accepted, hu, -⟩
    · rw [refused, Option.getD_none, hframes]
      exact ⟨fun c => by simp [here, Accepts, refused], below⟩
    · rw [accepted, Option.getD_some, hu]
      exact ⟨fun c => by simp [here, Accepts, accepted, or_comm], below⟩

theorem faithful_run (as : List Action) : Faithful as := by
  induction as using List.reverseRecOn with
  | nil => exact ⟨rfl, fun b => by simp [Entered, run, empty], trivial⟩
  | append_singleton as a ih =>
    cases a with
    | push => exact ih.push
    | pop => exact ih.pop
    | define b => exact ih.define b

/-! ## What a table answers -/

/-- A binding is accepted unless the innermost frame accepted one of that name before. -/
theorem accepts_iff : Accepts as b ↔ ∀ before c after, as = before ++ .define c :: after →
    c.name = b.name → Keeps before (.define c :: after) → ¬Accepts before c := by
  have faithful := faithful_run as
  obtain ⟨f, fs, hframes, decided⟩ := define?_cases (run as) b
  have count : fs.length = depth as := by simpa [hframes] using faithful.length_frames
  have hold := faithful.hold
  rw [hframes] at hold
  have known : binds f b.name ↔ ∃ c, c.name = b.name ∧ Entered as (depth as) c := by
    rw [binds_iff, ← count]
    simp only [hold.1, and_comm]
  have accepted : Accepts as b ↔ ¬binds f b.name := by
    rcases decided with ⟨bound, refused⟩ | ⟨free, u, accepted, -, -⟩
    · simp [Accepts, refused, bound]
    · simp [Accepts, accepted, free]
  rw [accepted, known]
  constructor
  · rintro none before c after rfl names ⟨level, open_⟩ accepts
    exact none ⟨c, names, before, after, rfl, level.symm, accepts, fun u hu => level ▸ open_ u hu⟩
  · rintro all ⟨c, names, before, after, rfl, level, accepts, open_⟩
    exact all before c after rfl names ⟨level.symm, fun u hu => level ▸ open_ u hu⟩ accepts

/-- What an action adds to what is known about a name, where only the domain's frame is open. -/
def Action.tells (name : String) : Action → Option Binding
  | define b => if b.name = name then some b else none
  | _ => none

theorem Action.tells_eq_some : a.tells name = some b ↔ a = .define b ∧ b.name = name := by
  cases a <;> grind [tells]

theorem Action.tells_eq_none : a.tells name = none ↔ ∀ b, a = .define b → b.name ≠ name := by
  cases a <;> grind [tells]

theorem lookup?_step (t : NameTable) (a : Action) (name : String) : (t.step a).lookup? name =
    (t.lookup? name).or (if t.inner = [] then a.tells name else none) := by
  cases a with
  | push | pop => simp [step, push, pop, lookup?, Action.tells]
  | define b =>
    obtain ⟨domain, inner⟩ := t
    cases inner with
    | cons f fs => cases h : binds f b.name <;> simp [step, define?, lookup?, h]
    | nil =>
      cases h : binds domain b.name with
      | false =>
        have new : domain.find? (·.name == b.name) = none := by
          simpa [binds] using h
        by_cases same : b.name = name
        · subst same
          simp [step, define?, lookup?, h, new, Action.tells]
        · simp [step, define?, lookup?, h, Action.tells, same]
      | true =>
        by_cases same : b.name = name
        · subst same
          obtain ⟨c, known⟩ : ∃ c, domain.find? (·.name == b.name) = some c := by
            rw [← Option.isSome_iff_exists, List.find?_isSome]
            simpa [binds] using h
          simp [step, define?, lookup?, h, known]
        · simp [step, define?, lookup?, h, Action.tells, same]

/-- No binding of that name was asked for while only the domain's frame was open. -/
def NoneInDomain (as : List Action) (name : String) : Prop :=
  ∀ before c after, as = before ++ .define c :: after → c.name = name → depth before ≠ 0

/-- The first binding of that name that was asked for while only the domain's frame was open. -/
def FirstInDomain (as : List Action) (name : String) (b : Binding) : Prop :=
  ∃ before after, as = before ++ .define b :: after ∧ b.name = name ∧ depth before = 0 ∧
    NoneInDomain before name

theorem noneInDomain_concat : NoneInDomain (as ++ [a]) name ↔
    NoneInDomain as name ∧ (depth as = 0 → a.tells name = none) := by
  rw [Action.tells_eq_none]
  constructor
  · intro none
    refine ⟨fun before c after split => ?_, fun domain b defines names => ?_⟩
    · exact none before c (after ++ [a]) (by simp [split])
    · exact none as b [] (by rw [defines]) names domain
  · rintro ⟨none, last⟩ before c after split names domain
    rcases concat_eq_iff.1 split with ⟨rfl, rfl, -⟩ | ⟨rest, -, rfl⟩
    · exact last domain c rfl names
    · exact none before c rest rfl names domain

theorem firstInDomain_concat : FirstInDomain (as ++ [a]) name b ↔
    FirstInDomain as name b ∨
      NoneInDomain as name ∧ depth as = 0 ∧ a.tells name = some b := by
  rw [Action.tells_eq_some]
  constructor
  · rintro ⟨before, after, split, names, domain, first⟩
    rcases concat_eq_iff.1 split with ⟨rfl, rfl, -⟩ | ⟨rest, -, rfl⟩
    · exact .inr ⟨first, domain, rfl, names⟩
    · exact .inl ⟨before, rest, rfl, names, domain, first⟩
  · rintro (⟨before, after, rfl, names, domain, first⟩ | ⟨first, domain, rfl, names⟩)
    · exact ⟨before, after ++ [a], by simp, names, domain, first⟩
    · exact ⟨as, [], rfl, names, domain, first⟩

theorem lookup?_run (as : List Action) (name : String) :
    ((run as).lookup? name = none ↔ NoneInDomain as name) ∧
    ∀ b, (run as).lookup? name = some b ↔ FirstInDomain as name b := by
  induction as using List.reverseRecOn with
  | nil => simp [run, lookup?, empty, NoneInDomain, FirstInDomain]
  | append_singleton as a ih =>
    obtain ⟨none, some⟩ := ih
    have bare : (run as).inner = [] ↔ depth as = 0 := by
      rw [← (faithful_run as).count, List.length_eq_zero_iff]
    simp only [run_concat, lookup?_step, bare, noneInDomain_concat, firstInDomain_concat,
      Option.or_eq_none_iff, Option.or_eq_some_iff, none, some]
    by_cases domain : depth as = 0 <;> simp [domain]

/-- What the domain's frame holds is never lost. -/
theorem domain_suffix_step (t : NameTable) (a : Action) : t.domain <:+ (t.step a).domain := by
  cases a with
  | push | pop => exact List.suffix_rfl
  | define b =>
    obtain ⟨domain, inner⟩ := t
    cases inner with
    | nil => cases h : binds domain b.name <;> simp [step, define?, h]
    | cons f fs => cases h : binds f b.name <;> simp [step, define?, h]

theorem domain_suffix_run (as after : List Action) :
    (run as).domain <:+ (run (as ++ after)).domain := by
  induction after using List.reverseRecOn with
  | nil => rw [List.append_nil]
  | append_singleton after a ih =>
    rw [← List.append_assoc, run_concat]
    exact ih.trans (domain_suffix_step _ a)

/-- **Frames keep to themselves.** A table has as many frames on top of the domain's as are open,
and with none open it cannot be popped any further. A binding is accepted exactly if none of its
name has been accepted in the innermost frame since that was opened. What the domain's frame holds
stays there, and of each name it shows the first binding that was asked for while no other frame
was open, whatever happened since. -/
theorem run_frames (as : List Action) :
    (run as).inner.length = depth as ∧
    (depth as = 0 → run (as ++ [.pop]) = run as) ∧
    (∀ b, Accepts as b ↔ ∀ before c after, as = before ++ .define c :: after →
      c.name = b.name → Keeps before (.define c :: after) → ¬Accepts before c) ∧
    (∀ after, (run as).domain <:+ (run (as ++ after)).domain) ∧
    ∀ name b, (run as).lookup? name = some b ↔ FirstInDomain as name b := by
  refine ⟨(faithful_run as).count, fun bare => ?_, fun b => accepts_iff, domain_suffix_run as,
    fun name => (lookup?_run as name).2⟩
  rw [← (faithful_run as).count, List.length_eq_zero_iff] at bare
  rw [run_concat, step, pop_eq_self bare]

def typeX : Binding := ⟨"x", .type, .unknown⟩

def elementX : Binding := ⟨"x", .element, .unknown⟩

/-- A type, two elements of its name in a frame on top of it, and one `pop` too many. -/
def shadowing : List Action :=
  [.define typeX, .push, .define elementX, .define elementX, .pop, .pop]

/-- The type is what is known of the name in the end, and nothing else can get it. -/
theorem run_frames_shadowing : depth shadowing = 0 ∧
    run (shadowing ++ [.pop]) = run shadowing ∧ ¬Accepts shadowing elementX ∧
    (run shadowing).lookup? "x" = some typeX := by
  obtain ⟨-, popped, accepted, -, known⟩ := run_frames shadowing
  have first : FirstInDomain shadowing "x" typeX :=
    ⟨[], _, rfl, rfl, rfl, fun before c after split => by simp at split⟩
  have kept : Keeps [] shadowing := ⟨rfl, fun u _ => Nat.zero_le _⟩
  refine ⟨rfl, popped rfl, fun again => ?_, (known _ _).2 first⟩
  exact (accepted elementX).1 again [] typeX _ rfl rfl kept rfl

end TypeDomains.NameTable
