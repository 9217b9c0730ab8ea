import ROssFuzz.TransitionRuns
import ROssFuzz.Resources

/-!
# The stack of the parser

A parse runs from `R_InitSrcRefState` to `R_FinalizeSrcRefState` and may begin inside
another, whose state is then saved and restored behind it. Within a parse `yyparse` runs, any
number of times, each with a stack that begins as a local array and moves to allocated
memory as it grows. `ParseState.yystack` records the allocated stack, so that the cleanup of
a parse that an error unwinds releases the stack its `yyparse` has left behind.

An allocated stack is known by the number of its allocation. An error unwinds the innermost
parse; further ones are unwound by further steps of the same kind. Of the parser's state
only the recorded stack is kept.
-/

namespace ROssFuzz.ParserStack
open TransitionRuns Resources

/-- A running `yyparse`: its stack, none being the local array, and the stack it has outgrown
and is about to free. -/
structure Yyparse where
  yyss : Option ℕ
  outgrown : Option ℕ

structure State where
  /-- `ParseState.yystack` -/
  yystack : Option ℕ
  /-- `yystack` in the saved states, from `ParseState.prevState` on -/
  prevState : List (Option ℕ)
  busy : Bool
  /-- the parses in progress, innermost first, with the `yyparse` that runs in each -/
  parses : List (Option Yyparse)
  /-- the allocations so far -/
  next : ℕ

inductive Action
  | initSrcRefState
  | yyparse
  /-- a growth: the new stack, unless there is no memory, and the outgrown one -/
  | mallocNew (memory : Bool)
  | freeOutgrown
  /-- `yyparse` returns -/
  | ret
  | finalizeSrcRefState
  /-- an error leaves the innermost parse -/
  | unwind

inductive Event
  | malloc (p : ℕ)
  | free (p : ℕ)
  | other
  deriving DecidableEq

def mallocs (es : List Event) : List ℕ :=
  es.filterMap fun e => match e with
    | .malloc p => some p
    | _ => none

def frees (es : List Event) : List ℕ :=
  es.filterMap fun e => match e with
    | .free p => some p
    | _ => none

/-- `yystack_malloc`, which here has memory. -/
def State.yystackMalloc (s : State) : Event × State :=
  (.malloc s.next, { s with yystack := some s.next, next := s.next + 1 })

/-- `yystack_free`. -/
def State.yystackFree (s : State) (p : ℕ) : Event × State :=
  (.free p, if some p = s.yystack then { s with yystack := none } else s)

/-- `R_InitSrcRefState`, with `PutSrcRefState`. -/
def State.initSrcRefState (s : State) : State :=
  if s.busy then
    { s with prevState := s.yystack :: s.prevState, yystack := none, parses := none :: s.parses }
  else { s with busy := true, parses := none :: s.parses }

/-- `UseSrcRefState` of `ParseState.prevState`, if there is one. -/
def State.useSrcRefState (s : State) : State :=
  match s.prevState with
  | [] => { s with busy := false }
  | yystack :: prevState => { s with yystack := yystack, prevState := prevState, busy := true }

/-- `R_FinalizeSrcRefState`. -/
def State.finalizeSrcRefState (s : State) : Event × State :=
  match s.yystack with
  | some p => (.free p, { s with yystack := none }.useSrcRefState)
  | none => (.other, s.useSrcRefState)

/-- A growth is not interrupted: no error arises and no parse begins while `yyparse` copies
its stack. -/
def system : System State Action Event where
  init s := s = ⟨none, [], false, [], 0⟩
  step s a :=
    match a, s.parses with
    | .initSrcRefState, [] => some (.other, s.initSrcRefState)
    | .initSrcRefState, none :: _ => some (.other, s.initSrcRefState)
    | .initSrcRefState, some ⟨_, none⟩ :: _ => some (.other, s.initSrcRefState)
    | .yyparse, none :: rest => some (.other, { s with parses := some ⟨none, none⟩ :: rest })
    | .mallocNew false, some ⟨_, none⟩ :: _ => some (.other, s)
    | .mallocNew true, some ⟨yyss, none⟩ :: rest =>
        let (e, t) := s.yystackMalloc
        some (e, { t with parses := some ⟨some s.next, yyss⟩ :: rest })
    | .freeOutgrown, some ⟨yyss, some p⟩ :: rest =>
        let (e, t) := s.yystackFree p
        some (e, { t with parses := some ⟨yyss, none⟩ :: rest })
    | .ret, some ⟨some p, none⟩ :: rest =>
        let (e, t) := s.yystackFree p
        some (e, { t with parses := none :: rest })
    | .ret, some ⟨none, none⟩ :: rest => some (.other, { s with parses := none :: rest })
    | .finalizeSrcRefState, none :: rest => some { s with parses := rest }.finalizeSrcRefState
    | .unwind, none :: rest => some { s with parses := rest }.finalizeSrcRefState
    | .unwind, some ⟨_, none⟩ :: rest => some { s with parses := rest }.finalizeSrcRefState
    | _, _ => none

/-! ### What a step does -/

/-- A parse whose `yyparse` is not growing its stack. -/
def Settled (y : Option Yyparse) : Prop := ∀ z, y = some z → z.outgrown = none

def stackOf (y : Option Yyparse) : Option ℕ := y.bind Yyparse.yyss

/-- The allocated stacks that a parse uses. -/
def uses : Option Yyparse → List ℕ
  | none => []
  | some y => y.yyss.toList ++ y.outgrown.toList

/-- The stacks in use. -/
def State.held (s : State) : List ℕ := s.parses.flatMap uses

/-- A step begins a parse, changes the `yyparse` of the innermost one, with or without its
stack, or leaves the innermost parse. -/
private theorem step_cases {s t : State} {a : Action} {e : Event}
    (h : system.step s a = some (e, t)) :
    (e = .other ∧ t = s.initSrcRefState ∧ ∀ y rest, s.parses = y :: rest → Settled y) ∨
    (e = .other ∧ ∃ y y' rest, s.parses = y :: rest ∧ t = { s with parses := y' :: rest } ∧
      uses y' = uses y ∧ stackOf y' = stackOf y) ∨
    (e = .malloc s.next ∧ ∃ yyss rest, s.parses = some ⟨yyss, none⟩ :: rest ∧
      t = { s with yystack := some s.next, next := s.next + 1,
                   parses := some ⟨some s.next, yyss⟩ :: rest }) ∨
    (∃ p yyss rest, e = .free p ∧ s.parses = some ⟨yyss, some p⟩ :: rest ∧
      t = { (s.yystackFree p).2 with parses := some ⟨yyss, none⟩ :: rest }) ∨
    (∃ p rest, e = .free p ∧ s.parses = some ⟨some p, none⟩ :: rest ∧
      t = { (s.yystackFree p).2 with parses := none :: rest }) ∨
    (∃ y rest, s.parses = y :: rest ∧ Settled y ∧
      (e, t) = { s with parses := rest }.finalizeSrcRefState) := by
  obtain ⟨yystack, prevState, busy, parses, next⟩ := s
  rcases parses with _ | ⟨_ | ⟨yyss, _ | q⟩, rest⟩
  · -- only a parse can begin
    cases a
    case mallocNew memory => cases memory <;> cases h
    all_goals cases h
    exact .inl ⟨rfl, rfl, nofun⟩
  · -- between two runs of `yyparse`
    cases a
    case initSrcRefState =>
      cases h
      exact .inl ⟨rfl, rfl, fun y rest hy => by cases hy; exact nofun⟩
    case yyparse =>
      cases h
      exact .inr (.inl ⟨rfl, none, some ⟨none, none⟩, rest, rfl, rfl, rfl, rfl⟩)
    case mallocNew memory => cases memory <;> cases h
    case freeOutgrown => cases h
    case ret => cases h
    all_goals
      have heq := Option.some.inj h
      exact .inr (.inr (.inr (.inr (.inr ⟨none, rest, rfl, nofun, heq.symm⟩))))
  · -- in a `yyparse` that is not growing
    have hsettled : Settled (some ⟨yyss, none⟩) := fun z hz => by cases hz; rfl
    cases a
    case initSrcRefState =>
      cases h
      exact .inl ⟨rfl, rfl, fun y rest hy => by cases hy; exact hsettled⟩
    case yyparse => cases h
    case mallocNew memory =>
      cases memory <;> cases h
      · exact .inr (.inl ⟨rfl, _, _, rest, rfl, rfl, rfl, rfl⟩)
      · exact .inr (.inr (.inl ⟨rfl, yyss, rest, rfl, rfl⟩))
    case freeOutgrown => cases h
    case ret =>
      cases yyss <;> cases h
      · exact .inr (.inl ⟨rfl, _, none, rest, rfl, rfl, rfl, rfl⟩)
      · exact .inr (.inr (.inr (.inr (.inl ⟨_, rest, rfl, rfl, rfl⟩))))
    case finalizeSrcRefState => cases h
    case unwind =>
      have heq := Option.some.inj h
      exact .inr (.inr (.inr (.inr (.inr ⟨_, rest, rfl, hsettled, heq.symm⟩))))
  · -- between the two halves of a growth
    cases a
    case freeOutgrown =>
      cases h
      exact .inr (.inr (.inr (.inl ⟨q, yyss, rest, rfl, rfl, rfl⟩)))
    case mallocNew memory => cases memory <;> cases h
    case ret => cases yyss <;> cases h
    all_goals cases h

/-! ### The invariant -/

/-- `yystack` and the saved ones are the stacks of the parses in progress. -/
def Recorded (s : State) : Prop :=
  match s.parses with
  | [] => s.yystack = none ∧ s.prevState = [] ∧ s.busy = false
  | y :: rest => s.yystack = stackOf y ∧ s.prevState = rest.map stackOf ∧ s.busy = true ∧
      ∀ z ∈ rest, Settled z

/-- The recorded stacks are right, and the stacks allocated are in use or freed. -/
structure Inv (es : List Event) (s : State) : Prop where
  recorded : Recorded s
  accounted : Accounted (mallocs es) (frees es) s.held
  numbered : ∀ p ∈ mallocs es, p < s.next

@[simp] private theorem mallocs_snoc (es : List Event) (e : Event) :
    mallocs (es ++ [e]) = match e with
      | .malloc p => mallocs es ++ [p]
      | _ => mallocs es := by
  cases e <;> simp [mallocs]

@[simp] private theorem frees_snoc (es : List Event) (e : Event) :
    frees (es ++ [e]) = match e with
      | .free p => frees es ++ [p]
      | _ => frees es := by
  cases e <;> simp [frees]

/-- A parse begins: the stack of the parse around it is saved with its state. -/
private theorem Inv.initSrcRefState {es : List Event} {s : State} (h : Inv es s)
    (hsettled : ∀ y rest, s.parses = y :: rest → Settled y) :
    Inv (es ++ [.other]) s.initSrcRefState := by
  obtain ⟨hrecorded, haccounted, hnumbered⟩ := h
  have hheld : s.initSrcRefState.held = s.held := by
    unfold State.initSrcRefState
    split <;> rfl
  have hnext : s.initSrcRefState.next = s.next := by
    unfold State.initSrcRefState
    split <;> rfl
  refine ⟨?_, by simpa [hheld] using haccounted, by simpa [hnext] using hnumbered⟩
  unfold Recorded at hrecorded
  cases hp : s.parses with
  | nil =>
    rw [hp] at hrecorded
    obtain ⟨hyystack, hprev, hbusy⟩ := hrecorded
    simp [State.initSrcRefState, Recorded, hbusy, hp, hyystack, hprev, stackOf]
  | cons y rest =>
    rw [hp] at hrecorded
    obtain ⟨hyystack, hprev, hbusy, hrest⟩ := hrecorded
    rw [State.initSrcRefState, if_pos hbusy]
    refine ⟨rfl, by rw [hyystack, hprev, hp, List.map_cons], hbusy, ?_⟩
    rw [hp]
    intro z hz
    rcases List.mem_cons.mp hz with rfl | hz
    · exact hsettled _ _ hp
    · exact hrest z hz

private theorem recorded_useSrcRefState {s : State} (hyystack : s.yystack = none)
    (hprev : s.prevState = s.parses.map stackOf) (hsettled : ∀ z ∈ s.parses, Settled z) :
    Recorded s.useSrcRefState ∧ s.useSrcRefState.held = s.held ∧
      s.useSrcRefState.next = s.next := by
  obtain ⟨yystack, prevState, busy, parses, next⟩ := s
  obtain rfl : yystack = none := hyystack
  obtain rfl : prevState = parses.map stackOf := hprev
  cases parses with
  | nil => exact ⟨⟨rfl, rfl, rfl⟩, rfl, rfl⟩
  | cons y rest =>
    exact ⟨⟨rfl, rfl, rfl, fun z hz => hsettled z (List.mem_cons_of_mem y hz)⟩, rfl, rfl⟩

/-- A parse ends, whether its `yyparse` has returned or an error has unwound it. -/
private theorem Inv.finalizeSrcRefState {es : List Event} {s : State} (h : Inv es s)
    {y : Option Yyparse} {rest : List (Option Yyparse)} (hp : s.parses = y :: rest)
    (hy : Settled y) {e : Event} {t : State}
    (ht : (e, t) = { s with parses := rest }.finalizeSrcRefState) : Inv (es ++ [e]) t := by
  obtain ⟨hrecorded, haccounted, hnumbered⟩ := h
  rw [Recorded, hp] at hrecorded
  obtain ⟨hyystack, hprev, hbusy, hrest⟩ := hrecorded
  have hheld : s.held = (stackOf y).toList ++ rest.flatMap uses := by
    rw [State.held, hp, List.flatMap_cons]
    cases y with
    | none => rfl
    | some z =>
      rw [uses, hy z rfl]
      simp [stackOf]
  obtain ⟨hrecorded', hheld', hnext'⟩ :=
    recorded_useSrcRefState (s := { s with parses := rest, yystack := none }) rfl hprev hrest
  cases hstack : stackOf y with
  | none =>
    rw [hstack] at hyystack hheld
    have hfinal : (e, t) = (.other, { s with parses := rest, yystack := none }.useSrcRefState) := by
      rw [ht, State.finalizeSrcRefState]
      simp only [hyystack]
    obtain ⟨rfl, rfl⟩ := Prod.mk.inj hfinal
    refine ⟨hrecorded', ?_, ?_⟩
    · simp only [mallocs_snoc, frees_snoc, hheld']
      rw [hheld] at haccounted
      exact haccounted
    · simpa [hnext'] using hnumbered
  | some p =>
    rw [hstack] at hyystack hheld
    have hfinal : (e, t) = (.free p, { s with parses := rest, yystack := none }.useSrcRefState) := by
      rw [ht, State.finalizeSrcRefState]
      simp only [hyystack]
    obtain ⟨rfl, rfl⟩ := Prod.mk.inj hfinal
    refine ⟨hrecorded', ?_, ?_⟩
    · simp only [mallocs_snoc, frees_snoc, hheld']
      apply haccounted.release
      rw [hheld]
      exact .refl _
    · simpa [hnext'] using hnumbered

/-- A new stack, with the outgrown one still to be freed. -/
private theorem Inv.mallocNew {es : List Event} {s : State} (h : Inv es s) {yyss : Option ℕ}
    {rest : List (Option Yyparse)} (hp : s.parses = some ⟨yyss, none⟩ :: rest) :
    Inv (es ++ [.malloc s.next])
      { s with yystack := some s.next, next := s.next + 1,
               parses := some ⟨some s.next, yyss⟩ :: rest } := by
  obtain ⟨hrecorded, haccounted, hnumbered⟩ := h
  rw [Recorded, hp] at hrecorded
  obtain ⟨-, hprev, hbusy, hrest⟩ := hrecorded
  refine ⟨⟨rfl, hprev, hbusy, hrest⟩, ?_, ?_⟩
  · simp only [mallocs_snoc, frees_snoc]
    apply haccounted.acquire fun hmem => absurd (hnumbered _ hmem) (Nat.lt_irrefl _)
    rw [State.held, State.held, hp]
    simp [uses]
  · simp only [mallocs_snoc]
    intro p hmem
    rcases List.mem_append.mp hmem with hmem | hmem
    · exact Nat.lt_succ_of_lt (hnumbered p hmem)
    · rw [List.mem_singleton.mp hmem]
      exact Nat.lt_succ_self _

/-- The outgrown stack is no longer the recorded one. -/
private theorem Inv.freeOutgrown {es : List Event} {s : State} (h : Inv es s) {p : ℕ}
    {yyss : Option ℕ} {rest : List (Option Yyparse)} (hp : s.parses = some ⟨yyss, some p⟩ :: rest) :
    Inv (es ++ [.free p]) { (s.yystackFree p).2 with parses := some ⟨yyss, none⟩ :: rest } := by
  obtain ⟨hrecorded, haccounted, hnumbered⟩ := h
  rw [Recorded, hp] at hrecorded
  obtain ⟨hyystack, hprev, hbusy, hrest⟩ := hrecorded
  have hheld : s.held = yyss.toList ++ p :: rest.flatMap uses := by
    rw [State.held, hp]
    simp [uses]
  have hother : some p ≠ s.yystack := by
    rw [hyystack]
    rintro rfl
    have hnodup := haccounted.held_nodup
    rw [hheld] at hnodup
    simp at hnodup
  have hfree : (s.yystackFree p).2 = s := by
    rw [State.yystackFree, if_neg hother]
  rw [hfree]
  refine ⟨⟨hyystack, hprev, hbusy, hrest⟩, ?_, by simpa using hnumbered⟩
  simp only [mallocs_snoc, frees_snoc]
  apply haccounted.release
  rw [hheld, State.held]
  simp [uses]

/-- `yyparse` frees the stack it returns with, which is the recorded one. -/
private theorem Inv.ret {es : List Event} {s : State} (h : Inv es s) {p : ℕ}
    {rest : List (Option Yyparse)} (hp : s.parses = some ⟨some p, none⟩ :: rest) :
    Inv (es ++ [.free p]) { (s.yystackFree p).2 with parses := none :: rest } := by
  obtain ⟨hrecorded, haccounted, hnumbered⟩ := h
  rw [Recorded, hp] at hrecorded
  obtain ⟨hyystack, hprev, hbusy, hrest⟩ := hrecorded
  have hself : some p = s.yystack := hyystack.symm
  have hfree : (s.yystackFree p).2 = { s with yystack := none } := by
    rw [State.yystackFree, if_pos hself]
  rw [hfree]
  refine ⟨⟨rfl, hprev, hbusy, hrest⟩, ?_, by simpa using hnumbered⟩
  simp only [mallocs_snoc, frees_snoc]
  apply haccounted.release
  rw [State.held, State.held, hp]
  exact .refl _

theorem inv {es : List Event} {s : State} (h : system.Run es s) : Inv es s := by
  refine System.Run.induct (I := Inv) ?_ ?_ h
  · rintro s rfl
    exact ⟨⟨rfl, rfl, rfl⟩, .init, by simp [mallocs]⟩
  · rintro es s a e t - hI hs
    rcases step_cases hs with ⟨rfl, rfl, hsettled⟩ | ⟨rfl, y, y', rest, hp, rfl, huses, hstack⟩ |
      ⟨rfl, yyss, rest, hp, rfl⟩ | ⟨p, yyss, rest, rfl, hp, rfl⟩ | ⟨p, rest, rfl, hp, rfl⟩ |
      ⟨y, rest, hp, hsettled, ht⟩
    · exact hI.initSrcRefState hsettled
    · -- the stacks stay as they are
      obtain ⟨hrecorded, haccounted, hnumbered⟩ := hI
      rw [Recorded, hp] at hrecorded
      obtain ⟨hyystack, hprev, hbusy, hrest⟩ := hrecorded
      refine ⟨⟨hyystack.trans hstack.symm, hprev, hbusy, hrest⟩, ?_, by simpa using hnumbered⟩
      rw [State.held, hp] at haccounted
      simpa [State.held, huses] using haccounted
    · exact hI.mallocNew hp
    · exact hI.freeOutgrown hp
    · exact hI.ret hp
    · exact hI.finalizeSrcRefState hp hsettled ht

/-- No stack is freed twice, or while a parse uses it; once no parse is in progress every
stack that was ever allocated has been freed exactly once, and `ParseState.yystack` is
NULL. -/
theorem parser_stack_freed_once {es : List Event} {s : State} (h : system.Run es s) :
    (mallocs es).Nodup ∧ (frees es).Nodup ∧ (∀ p ∈ frees es, p ∈ mallocs es ∧ p ∉ s.held) ∧
      (s.parses = [] → s.yystack = none ∧ ∀ p ∈ mallocs es, (frees es).count p = 1) := by
  obtain ⟨hrecorded, haccounted, -⟩ := inv h
  refine ⟨haccounted.fresh, haccounted.released_nodup,
    fun p hp => ⟨haccounted.mem_acquired.mpr (.inl hp), haccounted.not_held hp⟩, fun hidle => ?_⟩
  rw [Recorded, hidle] at hrecorded
  rw [State.held, hidle] at haccounted
  exact ⟨hrecorded.1, fun p hp =>
    haccounted.count_released_eq_one.mpr ⟨hp, List.not_mem_nil⟩⟩

/-- A parse that grows its stack twice and, in the middle, one inside it, from which an error
unwinds both. -/
theorem parser_stack_freed_once_nested : ∃ s, system.Run
    [.other, .other, .malloc 0, .malloc 1, .free 0, .other, .other, .malloc 2, .free 2, .free 1] s ∧
    s.yystack = none := by
  obtain ⟨s, h, hidle⟩ : ∃ s, system.Run [.other, .other, .malloc 0, .malloc 1, .free 0, .other,
      .other, .malloc 2, .free 2, .free 1] s ∧ s.parses.length = 0 :=
    System.Run.of_exec (S := system) (fun s => s.parses.length) ⟨none, [], false, [], 0⟩
      [.initSrcRefState, .yyparse, .mallocNew true, .mallocNew true, .freeOutgrown,
        .initSrcRefState, .yyparse, .mallocNew true, .unwind, .unwind] rfl (by decide +kernel)
  exact ⟨s, h, ((parser_stack_freed_once h).2.2.2 (List.length_eq_zero_iff.mp hidle)).1⟩

end ROssFuzz.ParserStack
