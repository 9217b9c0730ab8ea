import ROssFuzz.CachedSettings
import ROssFuzz.CStrings
import ROssFuzz.TransitionRuns

/-!
# The locale of the datetime target

`set_ctype` remembers in `ctype_is_utf8` which of the two settings R's LC_CTYPE has, and
evaluates `Sys.setlocale` only for the other one. The evaluation may fail, and its error is
discarded. The warm-up runs every slot once, in order, and the inputs run any.
-/

namespace ROssFuzz.LocaleCache
open CachedSettings CStrings TransitionRuns

/-- A setting of LC_CTYPE. The first three are those that the target names. -/
inductive Ctype | c | cUtf8 | enUsUtf8 | other (name : String)
  deriving DecidableEq

/-- `FUZZ_MAX_INPUT`. -/
def fuzzMaxInput : ℕ := 1024 * 64

/-- `N_FORMATS + 3`. -/
def nFixedCalls : ℕ := 9

/-- `N_CALLS`, the fixed calls and `N_FMT_CALLS` more. -/
def nCalls : ℕ := nFixedCalls + 8

/-- `FIRST_UTF8_CALL`. -/
def firstUtf8Call : ℕ := nCalls - 2

/-- `DEFAULT_FORMAT`. -/
def defaultFormat : Bytes := ascii "%Y-%m-%d %H:%M:%OS"

def newline : UInt8 := 0x0a

/-- `find_utf8_locale`, on a runner that has the locales it has. The probe puts LC_CTYPE
back, and R's view of it is not changed in between. -/
def findUtf8Locale (has : Ctype → Bool) : Option Ctype := [Ctype.cUtf8, .enUsUtf8].find? has

structure State where
  /-- -1 until `set_ctype` first runs. -/
  ctypeIsUtf8 : ℤ
  /-- R's view of LC_CTYPE, which `Sys.setlocale` updates. -/
  ctype : Ctype
  xStr : Bytes
  fmtStr : Bytes
  /-- How many slots the warm-up has run. -/
  warm : ℕ

/-- As the warm-up begins. -/
def State.initial (ctype : Ctype) : State where
  ctypeIsUtf8 := -1
  ctype := ctype
  xStr := ascii "2024-01-15 12:30:00"
  fmtStr := defaultFormat
  warm := 0

/-- What came of the evaluation of `Sys.setlocale`. -/
inductive Switch | skipped | succeeded | failed
  deriving DecidableEq

/-- `set_ctype`, where `utf8` is the locale that `call_ctype_utf8` names, if it is not `NULL`.
-/
def setCtype (utf8 : Option Ctype) (succeeds : Bool) (wantUtf8 : ℤ) (s : State) :
    Switch × State :=
  let wantUtf8 := if utf8 = none then 0 else wantUtf8
  if wantUtf8 = s.ctypeIsUtf8 then (.skipped, s)
  else if succeeds then
    (.succeeded, { s with
      ctype := if wantUtf8 = 0 then .c else utf8.getD .c, ctypeIsUtf8 := wantUtf8 })
  else (.failed, { s with ctypeIsUtf8 := wantUtf8 })

/-- An input returns early, or a slot is run, with R's LC_CTYPE and the two strings then. -/
inductive Event
  | rejected
  | ran (slot : ℕ) (switch : Switch) (ctype : Ctype) (value fmt : Bytes)
  deriving DecidableEq

/-- `set_ctype(i >= FIRST_UTF8_CALL)` and the slot's own call. -/
def runSlot (utf8 : Option Ctype) (succeeds : Bool) (i : ℕ) (s : State) : Event × State :=
  let r := setCtype utf8 succeeds (if firstUtf8Call ≤ i then 1 else 0) s
  (.ran i r.1 r.2.ctype r.2.xStr r.2.fmtStr, r.2)

/-- The datetime string and the format in a payload. -/
def splitPayload (selected : ℕ) (payload : Bytes) : Bytes × Bytes :=
  if selected < nFixedCalls then (payload, defaultFormat)
  else if newline ∈ payload then
    (payload.drop (payload.idxOf newline + 1), payload.take (payload.idxOf newline))
  else (payload, defaultFormat)

/-- The scheduler's choices: whether `fuzz_set_string` stages each of the two strings, and
whether an evaluation of `Sys.setlocale` succeeds. -/
inductive Action
  | warmUp (succeeds : Bool)
  | input (data : Bytes) (xStaged fmtStaged succeeds : Bool)

def fuzzTargetRun (utf8 : Option Ctype) (xStaged fmtStaged succeeds : Bool) (s : State) :
    Bytes → Event × State
  | [] => (.rejected, s)
  | slot :: payload =>
      if payload.length < 1 ∨ fuzzMaxInput < payload.length + 1 ∨ 0 ∈ payload then (.rejected, s)
      else
        let selected := slot.toNat % nCalls
        let (value, fmt) := splitPayload selected payload
        if xStaged = false then (.rejected, s)
        else
          let s := { s with xStr := value }
          if fmtStaged = false then (.rejected, s)
          else runSlot utf8 succeeds selected { s with fmtStr := fmt }

def step (utf8 : Option Ctype) (s : State) : Action → Option (Event × State)
  | .warmUp succeeds =>
      if s.warm < nCalls then
        let r := runSlot utf8 succeeds s.warm s
        some (r.1, { r.2 with warm := s.warm + 1 })
      else none
  | .input data xStaged fmtStaged succeeds =>
      if s.warm < nCalls then none
      else some (fuzzTargetRun utf8 xStaged fmtStaged succeeds s data)

/-- The target on a runner, from any locale that R starts in. -/
def system (has : Ctype → Bool) : System State Action Event where
  init s := ∃ ctype, s = .initial ctype
  step := step (findUtf8Locale has)

/-! ### The cache -/

/-- The setting a slot is to run under: the runner's UTF-8 locale for the last two, if it has
one, and else C. -/
def wanted (utf8 : Option Ctype) (slot : ℕ) : Ctype :=
  if firstUtf8Call ≤ slot then utf8.getD .c else .c

/-- What a value of `ctype_is_utf8` says. -/
def believed (utf8 : Option Ctype) (ctypeIsUtf8 : ℤ) : Option Ctype :=
  if ctypeIsUtf8 = -1 then none else if ctypeIsUtf8 = 0 then some .c else utf8

def State.cached (utf8 : Option Ctype) (s : State) : Cached Ctype :=
  ⟨believed utf8 s.ctypeIsUtf8, s.ctype⟩

/-- `ctype_is_utf8` equals R's setting, or is -1. -/
def Agrees (utf8 : Option Ctype) (s : State) : Prop :=
  s.ctypeIsUtf8 = -1 ∨ s.ctypeIsUtf8 = 0 ∧ s.ctype = .c ∨
    s.ctypeIsUtf8 = 1 ∧ utf8 = some s.ctype

/-- The slot that an action runs. -/
def Action.slot (s : State) : Action → Option ℕ
  | .warmUp _ => some s.warm
  | .input [] _ _ _ => none
  | .input (slot :: payload) xStaged fmtStaged _ =>
      if payload.length < 1 ∨ fuzzMaxInput < payload.length + 1 ∨ 0 ∈ payload ∨
        xStaged = false ∨ fmtStaged = false then none
      else some (slot.toNat % nCalls)

def Action.succeeds : Action → Bool
  | .warmUp succeeds | .input _ _ _ succeeds => succeeds

/-- Where `set_ctype` does not find the setting that it wants in `ctype_is_utf8`, the
evaluation succeeds, or R has that setting already. -/
def Effective (utf8 : Option Ctype) (s : State) (a : Action) : Prop :=
  ∀ slot ∈ a.slot s, (s.cached utf8).Effective (wanted utf8 slot) a.succeeds

instance (utf8 : Option Ctype) (s : State) (a : Action) : Decidable (Effective utf8 s a) :=
  inferInstanceAs (Decidable (∀ slot ∈ a.slot s, _ → _))

section Cache
variable {utf8 : Option Ctype} {s t : State} {succeeds : Bool}

/-- The values that `ctype_is_utf8` takes. -/
def Known (utf8 : Option Ctype) (s : State) : Prop :=
  s.ctypeIsUtf8 = -1 ∨ s.ctypeIsUtf8 = 0 ∨ s.ctypeIsUtf8 = 1 ∧ utf8 ≠ none

theorem agrees_iff (hutf8 : utf8 ≠ some .c) :
    Agrees utf8 s ↔ Known utf8 s ∧ (s.cached utf8).Agrees := by
  constructor
  · rintro (h | ⟨h, hc⟩ | ⟨h, hu⟩)
    · exact ⟨.inl h, by simp [Cached.Agrees, State.cached, believed, h]⟩
    · exact ⟨.inr (.inl h), by simp [Cached.Agrees, State.cached, believed, h, hc]⟩
    · exact ⟨.inr (.inr ⟨h, by simp [hu]⟩), by simp [Cached.Agrees, State.cached, believed, h, hu]⟩
  · rintro ⟨h | h | ⟨h, hu⟩, hagrees⟩
    · exact .inl h
    · exact .inr (.inl ⟨h, hagrees .c (by simp [State.cached, believed, h])⟩)
    · obtain ⟨u, rfl⟩ := Option.ne_none_iff_exists'.mp hu
      have hctype : s.ctype = u := hagrees u (by simp [State.cached, believed, h])
      exact .inr (.inr ⟨h, by rw [hctype]⟩)

/-- `want_utf8`, as `set_ctype` goes by it for a slot. -/
def wantUtf8 (utf8 : Option Ctype) (slot : ℕ) : ℤ :=
  if utf8 = none then 0 else if firstUtf8Call ≤ slot then 1 else 0

/-- It stands for the setting the slot is to run under. -/
theorem wantUtf8_cases (utf8 : Option Ctype) (slot : ℕ) :
    wantUtf8 utf8 slot = 0 ∧ wanted utf8 slot = .c ∨
      wantUtf8 utf8 slot = 1 ∧ utf8 = some (wanted utf8 slot) := by
  cases utf8 <;> by_cases h : firstUtf8Call ≤ slot <;> simp [wantUtf8, wanted, h]

theorem wantUtf8_eq_iff (hutf8 : utf8 ≠ some .c) (hk : Known utf8 s) (slot : ℕ) :
    wantUtf8 utf8 slot = s.ctypeIsUtf8 ↔
      believed utf8 s.ctypeIsUtf8 = some (wanted utf8 slot) := by
  rcases wantUtf8_cases utf8 slot with ⟨hw, hwanted⟩ | ⟨hw, hwanted⟩ <;>
    rcases hk with h | h | ⟨h, hu⟩ <;> rw [hw, h]
  · simp [believed]
  · simp [believed, hwanted]
  · simpa [believed, hwanted] using hutf8
  · simp [believed]
  · simpa [believed, ← hwanted] using Ne.symm hutf8
  · simpa [believed] using hwanted

/-- `set_ctype` makes sure of the setting that the slot wants. -/
theorem setCtype_ensure (hutf8 : utf8 ≠ some .c) (hk : Known utf8 s) (slot : ℕ) :
    Known utf8 (setCtype utf8 succeeds (if firstUtf8Call ≤ slot then 1 else 0) s).2 ∧
      (setCtype utf8 succeeds (if firstUtf8Call ≤ slot then 1 else 0) s).2.cached utf8 =
        (s.cached utf8).ensure (wanted utf8 slot) succeeds := by
  have heq := wantUtf8_eq_iff hutf8 hk slot
  have hset : setCtype utf8 succeeds (if firstUtf8Call ≤ slot then 1 else 0) s =
      if wantUtf8 utf8 slot = s.ctypeIsUtf8 then (.skipped, s)
      else if succeeds then (.succeeded, { s with
        ctype := if wantUtf8 utf8 slot = 0 then .c else utf8.getD .c
        ctypeIsUtf8 := wantUtf8 utf8 slot })
      else (.failed, { s with ctypeIsUtf8 := wantUtf8 utf8 slot }) := rfl
  rw [hset]
  by_cases hskip : wantUtf8 utf8 slot = s.ctypeIsUtf8
  · rw [if_pos hskip, Cached.ensure_of_believed (heq.mp hskip)]
    exact ⟨hk, rfl⟩
  · have hne : (s.cached utf8).believed ≠ some (wanted utf8 slot) := fun h => hskip (heq.mpr h)
    rw [if_neg hskip, Cached.ensure, if_neg hne]
    rcases wantUtf8_cases utf8 slot with ⟨hw, hwanted⟩ | ⟨hw, hwanted⟩
    · rw [hw, hwanted]
      cases succeeds <;> exact ⟨.inr (.inl rfl), rfl⟩
    · have hsome : utf8.getD .c = wanted utf8 slot := congrArg (Option.getD · Ctype.c) hwanted
      have hne' : utf8 ≠ none := Option.ne_none_iff_exists'.mpr ⟨_, hwanted⟩
      rw [hw, if_neg one_ne_zero, hsome]
      refine ⟨?_, ?_⟩
      · cases succeeds <;> exact .inr (.inr ⟨rfl, hne'⟩)
      · cases succeeds <;> simp [State.cached, believed, ← hwanted]

end Cache

/-! ### Runs -/

section Runs
variable {utf8 : Option Ctype} {s t : State} {a : Action} {e : Event}

/-- A step runs a slot, after `set_ctype` for it, or leaves the locale alone. -/
theorem step_cases (hutf8 : utf8 ≠ some .c) (hk : Known utf8 s)
    (hs : step utf8 s a = some (e, t)) :
    Known utf8 t ∧ ((a.slot s = none ∧ e = .rejected ∧ t.cached utf8 = s.cached utf8) ∨
      ∃ slot switch value fmt, a.slot s = some slot ∧ e = .ran slot switch t.ctype value fmt ∧
        t.cached utf8 = (s.cached utf8).ensure (wanted utf8 slot) a.succeeds) := by
  cases a with
  | warmUp succeeds =>
    obtain ⟨hwarm, hs⟩ := Option.ite_none_right_eq_some.mp hs
    obtain ⟨rfl, rfl⟩ := Prod.mk.inj (Option.some.inj hs)
    obtain ⟨hknown, hcached⟩ := @setCtype_ensure _ _ succeeds hutf8 hk s.warm
    exact ⟨hknown, .inr ⟨_, _, _, _, rfl, rfl, hcached⟩⟩
  | input data xStaged fmtStaged succeeds =>
    obtain ⟨hwarm, hs⟩ := Option.ite_none_left_eq_some.mp hs
    have hrun := Option.some.inj hs
    cases data with
    | nil =>
      obtain ⟨rfl, rfl⟩ := Prod.mk.inj hrun
      exact ⟨hk, .inl ⟨rfl, rfl, rfl⟩⟩
    | cons slot payload =>
      simp only [fuzzTargetRun] at hrun
      by_cases hguard : payload.length < 1 ∨ fuzzMaxInput < payload.length + 1 ∨ 0 ∈ payload
      · rw [if_pos hguard] at hrun
        obtain ⟨rfl, rfl⟩ := Prod.mk.inj hrun
        refine ⟨hk, .inl ⟨if_pos ?_, rfl, rfl⟩⟩
        exact hguard.imp_right (.imp_right .inl)
      · rw [if_neg hguard] at hrun
        cases xStaged with
        | false =>
          obtain ⟨rfl, rfl⟩ := Prod.mk.inj hrun
          exact ⟨hk, .inl ⟨by simp [Action.slot], rfl, rfl⟩⟩
        | true =>
          cases fmtStaged with
          | false =>
            obtain ⟨rfl, rfl⟩ := Prod.mk.inj hrun
            exact ⟨hk, .inl ⟨by simp [Action.slot], rfl, rfl⟩⟩
          | true =>
            obtain ⟨rfl, rfl⟩ := Prod.mk.inj hrun
            obtain ⟨hknown, hcached⟩ := @setCtype_ensure utf8 { s with
              xStr := (splitPayload (slot.toNat % nCalls) payload).1
              fmtStr := (splitPayload (slot.toNat % nCalls) payload).2 } succeeds hutf8 hk
                (slot.toNat % nCalls)
            exact ⟨hknown, .inr ⟨_, _, _, _, by simpa [Action.slot] using hguard, rfl, hcached⟩⟩

/-- The cache stays right exactly where the condition is met. -/
theorem step_agrees_iff (hutf8 : utf8 ≠ some .c) (h : Agrees utf8 s)
    (hs : step utf8 s a = some (e, t)) : Agrees utf8 t ↔ Effective utf8 s a := by
  obtain ⟨hk, hagrees⟩ := (agrees_iff hutf8).mp h
  obtain ⟨hk', ⟨hslot, -, hcached⟩ | ⟨slot, switch, value, fmt, hslot, -, hcached⟩⟩ :=
    step_cases hutf8 hk hs
  · simp [agrees_iff hutf8, hk', hcached, hagrees, Effective, hslot]
  · simp [agrees_iff hutf8, hk', hcached, Cached.ensure_agrees_iff hagrees, Effective, hslot]

theorem findUtf8Locale_ne (has : Ctype → Bool) : findUtf8Locale has ≠ some .c := by
  intro h
  have hmem := List.mem_of_find?_eq_some h
  simp at hmem

/-- The cache agrees with R's locale, and every slot is run under its own setting, in every
run in which no evaluation of `Sys.setlocale` fails that would have changed the locale. So a
switch is skipped only where R has the setting, and one that has failed had nothing to do. -/
theorem locale_agrees {has : Ctype → Bool} {es : List Event}
    (h : ((system has).restrict (Effective (findUtf8Locale has))).Run es s) :
    Agrees (findUtf8Locale has) s ∧ ∀ slot switch ctype value fmt,
      .ran slot switch ctype value fmt ∈ es → ctype = wanted (findUtf8Locale has) slot := by
  have hutf8 := findUtf8Locale_ne has
  refine h.induct (I := fun es s => Agrees (findUtf8Locale has) s ∧
    ∀ slot switch ctype value fmt, .ran slot switch ctype value fmt ∈ es →
      ctype = wanted (findUtf8Locale has) slot) ?_ ?_
  · rintro s ⟨ctype, rfl⟩
    exact ⟨.inl rfl, by simp⟩
  · rintro es s a e t - ⟨hagrees, hran⟩ hs
    obtain ⟨heffective, hstep⟩ := System.restrict_step.mp hs
    refine ⟨(step_agrees_iff hutf8 hagrees hstep).mpr heffective, ?_⟩
    intro slot switch ctype value fmt hmem
    rcases List.mem_append.mp hmem with hmem | hmem
    · exact hran slot switch ctype value fmt hmem
    · obtain ⟨hk, hcached⟩ := (agrees_iff hutf8).mp hagrees
      obtain ⟨-, ⟨-, rfl, -⟩ | ⟨slot', switch', value', fmt', hslot, rfl, hensure⟩⟩ :=
        step_cases hutf8 hk hstep
      · simp at hmem
      · obtain ⟨rfl, rfl, rfl, rfl, rfl⟩ : slot = slot' ∧ switch = switch' ∧ ctype = t.ctype ∧
            value = value' ∧ fmt = fmt' := by simpa using hmem
        have hactual := Cached.ensure_actual_of_effective hcached (heffective slot hslot)
        rwa [← hensure] at hactual

end Runs

/-- A runner with C.UTF-8 alone, as the target has been warmed up on it. -/
def onlyCUtf8 (ctype : Ctype) : Bool := ctype = .cUtf8

def warmUpSchedule : List Action := .replicate nCalls (.warmUp true)

/-- A UTF-8 slot, and a C slot after it. -/
theorem locale_agrees_switched : ∃ es s, ((system onlyCUtf8).restrict
      (Effective (findUtf8Locale onlyCUtf8))).Run es s ∧ s.ctypeIsUtf8 = 0 ∧
    Agrees (findUtf8Locale onlyCUtf8) s := by
  obtain ⟨es, s, hrun, hs⟩ := System.Run.of_schedule
    (S := (system onlyCUtf8).restrict (Effective (findUtf8Locale onlyCUtf8)))
    (fun p => p.2.ctypeIsUtf8) (State.initial (.other "de_DE"))
    (warmUpSchedule ++
      [.input [16, 0x78] true true true, .input [0, 0x78] true true true])
    (y := 0) ⟨_, rfl⟩ (by decide +kernel)
  exact ⟨es, s, hrun, hs, (locale_agrees hrun).1⟩

/-- A C slot whose switch fails, and another one: it is run in the UTF-8 locale without a
second try. -/
theorem locale_agrees_failed : ∃ es s value fmt, (system onlyCUtf8).Run es s ∧
    ¬ Agrees (findUtf8Locale onlyCUtf8) s ∧ .ran 0 .skipped .cUtf8 value fmt ∈ es ∧
      wanted (findUtf8Locale onlyCUtf8) 0 = .c := by
  obtain ⟨es, s, hrun, hs⟩ := System.Run.of_schedule (S := system onlyCUtf8)
    (fun p => (p.1.getLast?, p.2.ctypeIsUtf8, p.2.ctype)) (State.initial (.other "de_DE"))
    (warmUpSchedule ++
      [.input [0, 0x78] true true false, .input [0, 0x79] true true true])
    (y := (some (.ran 0 .skipped .cUtf8 [0x79] defaultFormat), 0, .cUtf8)) ⟨_, rfl⟩
    (by decide +kernel)
  obtain ⟨hlast, hstate⟩ := Prod.mk.inj hs
  obtain ⟨hcache, hctype⟩ := Prod.mk.inj hstate
  refine ⟨es, s, _, _, hrun, ?_, List.mem_of_getLast? hlast, by decide⟩
  have hcache' : s.ctypeIsUtf8 = 0 := hcache
  have hctype' : s.ctype = .cUtf8 := hctype
  simp [Agrees, hcache', hctype']

end ROssFuzz.LocaleCache
