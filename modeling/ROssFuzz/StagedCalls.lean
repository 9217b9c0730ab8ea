import Mathlib.Data.Set.Insert
import Mathlib.Data.List.Basic

/-!
# Staged calls

A process that lives from one input to the next keeps cells, and the calls that it has
evaluated are built once over these cells. For every input a program fills cells and hands
calls over; whoever evaluates them may refuse to fill a cell, may answer with an error, and
may write what it likes to any cell.

A program is covered when every cell in a call it hands over has been filled by itself. Then
neither what it hands over nor whether it aborts depends on what the process did before: the
inputs of a session do what each of them does in a process of its own, where what is left over
in its memory may be something else.
-/

namespace ROssFuzz.StagedCalls

universe u

/-! ### Calls -/

/-- A list of cons cells with tags. -/
inductive Pairlist (α : Type u)
  | nil
  | leaf (a : α)
  | cons (tag : Option String) (car cdr : Pairlist α)
  deriving DecidableEq

namespace Pairlist

variable {α β : Type u}

def map (f : α → β) : Pairlist α → Pairlist β
  | .nil => .nil
  | .leaf a => .leaf (f a)
  | .cons tag car cdr => .cons tag (car.map f) (cdr.map f)

def leaves : Pairlist α → List α
  | .nil => []
  | .leaf a => [a]
  | .cons _ car cdr => car.leaves ++ cdr.leaves

theorem map_congr {f g : α → β} {x : Pairlist α} (h : ∀ a ∈ x.leaves, f a = g a) :
    x.map f = x.map g := by
  induction x with
  | nil => rfl
  | leaf a => rw [map, map, h a (by simp [leaves])]
  | cons tag car cdr ihcar ihcdr =>
    simp only [leaves, List.mem_append] at h
    rw [map, map, ihcar fun a ha => h a (.inl ha), ihcdr fun a ha => h a (.inr ha)]

/-- The list of some values, none of them tagged. -/
def ofList : List (Pairlist α) → Pairlist α
  | [] => .nil
  | x :: xs => .cons none x (ofList xs)

/-- The tag of the cons cell after `n` others; a list that ends before keeps its tags. -/
def setTag (tag : String) : ℕ → Pairlist α → Pairlist α
  | 0, .cons _ car cdr => .cons (some tag) car cdr
  | n + 1, .cons old car cdr => .cons old car (cdr.setTag tag n)
  | _, x => x

@[simp] theorem leaves_setTag (tag : String) (n : ℕ) (x : Pairlist α) :
    (x.setTag tag n).leaves = x.leaves := by
  induction n generalizing x with
  | zero => cases x <;> rfl
  | succ n ih =>
    cases x with
    | cons old car cdr => rw [setTag, leaves, leaves, ih]
    | nil | leaf => rfl

end Pairlist

/-- What stands at a leaf of a call: a value, or a cell. -/
inductive Leaf (κ α : Type)
  | value (v : α)
  | cell (c : κ)
  deriving DecidableEq

abbrev Call (κ α : Type) := Pairlist (Leaf κ α)

section
variable {κ α : Type}

abbrev Cells (κ α : Type) := κ → α

def Leaf.content (cells : Cells κ α) : Leaf κ α → α
  | .value v => v
  | .cell c => cells c

/-- A call as its evaluation finds it. -/
def Call.contents (cells : Cells κ α) (call : Call κ α) : Pairlist α := call.map (Leaf.content cells)

def Leaf.cell? : Leaf κ α → Option κ
  | .value _ => none
  | .cell c => some c

def Call.cells (call : Call κ α) : List κ := call.leaves.filterMap Leaf.cell?

theorem Call.contents_congr {call : Call κ α} {cells cells' : Cells κ α}
    (h : ∀ c ∈ call.cells, cells c = cells' c) : call.contents cells = call.contents cells' := by
  refine Pairlist.map_congr fun l hl => ?_
  cases l with
  | value v => rfl
  | cell c => exact h c (List.mem_filterMap.mpr ⟨.cell c, hl, rfl⟩)

/-! ### Programs -/

/-- `stage` fills a cell unless that is refused, which ends the program; `store` cannot be
refused. A call's evaluation answers with a value, or with none for an error. -/
inductive Program (κ α : Type)
  | done
  | abort
  | stage (c : κ) (v : α) (next : Program κ α)
  | store (c : κ) (v : α) (next : Program κ α)
  | eval (call : Call κ α) (next : Option α → Program κ α)

/-- What comes of a `stage` or an `eval`: no result is a refusal or an error. The cells may
be written to in any case. -/
structure Reply (κ α : Type) where
  result : Option α
  writes : List (κ × α)

/-- The first `n` replies are there, and none is a refusal. -/
def AllGranted (n : ℕ) (replies : List (Reply κ α)) : Prop :=
  n ≤ replies.length ∧ ∀ reply ∈ replies.take n, reply.result.isSome = true

instance (n : ℕ) (replies : List (Reply κ α)) : Decidable (AllGranted n replies) :=
  inferInstanceAs (Decidable (_ ∧ _))

@[simp] theorem allGranted_zero (replies : List (Reply κ α)) : AllGranted 0 replies := by simp [AllGranted]

@[simp] theorem not_allGranted_nil (n : ℕ) : ¬ AllGranted (n + 1) ([] : List (Reply κ α)) := by
  simp [AllGranted]

@[simp] theorem allGranted_cons (n : ℕ) (reply : Reply κ α) (replies : List (Reply κ α)) :
    AllGranted (n + 1) (reply :: replies) ↔ reply.result.isSome = true ∧ AllGranted n replies := by
  simp only [AllGranted, List.length_cons, Nat.add_le_add_iff_right, List.take_succ_cons,
    List.forall_mem_cons]
  tauto

/-- What is seen of a program: the calls it hands over, and whether it aborts. -/
structure Trace (α : Type) where
  calls : List (Pairlist α)
  aborted : Bool
  deriving DecidableEq

/-- Every cell of a call that the program hands over is among `filled`, or has been filled by
the program. -/
def Program.Covered : Set κ → Program κ α → Prop
  | _, .done | _, .abort => True
  | filled, .stage c _ next | filled, .store c _ next => next.Covered (insert c filled)
  | filled, .eval call next =>
      (∀ c ∈ call.cells, c ∈ filled) ∧ ∀ result, (next result).Covered filled

/-- Some cells filled, then the rest. -/
def Program.stages (v : Cells κ α) (cs : List κ) (next : Program κ α) : Program κ α :=
  cs.foldr (fun c p => .stage c (v c) p) next

def Agree (filled : Set κ) (cells cells' : Cells κ α) : Prop := ∀ c ∈ filled, cells c = cells' c

variable {filled : Set κ} {cells cells' : Cells κ α}

theorem Program.stages_covered {v : Cells κ α} {cs : List κ} {next : Program κ α}
    (h : next.Covered ({c | c ∈ cs} ∪ filled)) : (stages v cs next).Covered filled := by
  induction cs generalizing filled with
  | nil => simpa [stages] using h
  | cons c cs ih =>
    refine ih ?_
    convert h using 1
    ext c'
    simp only [Set.mem_union, Set.mem_ofPred_eq, Set.mem_insert_iff, List.mem_cons]
    tauto

theorem Agree.empty (cells cells' : Cells κ α) : Agree ∅ cells cells' := fun _ h => h.elim

theorem Agree.mono {smaller : Set κ} (h : Agree filled cells cells') (hs : smaller ⊆ filled) :
    Agree smaller cells cells' := fun c hc => h c (hs hc)

/-! ### Runs -/

variable [DecidableEq κ]

def Cells.write (cells : Cells κ α) (c : κ) (v : α) : Cells κ α :=
  fun c' => if c' = c then v else cells c'

def Cells.writes (cells : Cells κ α) (ws : List (κ × α)) : Cells κ α :=
  ws.foldl (fun cells w => cells.write w.1 w.2) cells

/-- The trace of a program and the cells it leaves. The replies end where the process is
killed. -/
def Program.run : Program κ α → List (Reply κ α) → Cells κ α → Trace α × Cells κ α
  | .done, _, cells => (⟨[], false⟩, cells)
  | .abort, _, cells => (⟨[], true⟩, cells)
  | .store c v next, replies, cells => next.run replies (cells.write c v)
  | .stage _ _ _, [], cells => (⟨[], true⟩, cells)
  | .stage c v next, reply :: replies, cells =>
      if reply.result.isSome then next.run replies ((cells.writes reply.writes).write c v)
      else (⟨[], false⟩, cells.writes reply.writes)
  | .eval call _, [], cells => (⟨[call.contents cells], true⟩, cells)
  | .eval call next, reply :: replies, cells =>
      let (trace, cells') := (next reply.result).run replies (cells.writes reply.writes)
      (⟨call.contents cells :: trace.calls, trace.aborted⟩, cells')

theorem Agree.write (h : Agree filled cells cells') (c : κ) (v : α) :
    Agree (insert c filled) (cells.write c v) (cells'.write c v) := by
  intro c' hc'
  by_cases hc : c' = c
  · simp [Cells.write, hc]
  · simpa [Cells.write, hc] using h c' (Set.mem_of_mem_insert_of_ne hc' hc)

theorem Agree.writes (h : Agree filled cells cells') (ws : List (κ × α)) :
    Agree filled (cells.writes ws) (cells'.writes ws) := by
  induction ws generalizing cells cells' with
  | nil => exact h
  | cons w ws ih => exact ih ((h.write w.1 w.2).mono (Set.subset_insert w.1 filled))

/-- Whatever the cells hold that a covered program has not filled, its trace is the same. -/
theorem Program.Covered.run_eq {p : Program κ α} (hp : p.Covered filled)
    (h : Agree filled cells cells') (replies : List (Reply κ α)) :
    (p.run replies cells).1 = (p.run replies cells').1 := by
  induction p generalizing filled cells cells' replies with
  | done | abort => rfl
  | store c v next ih => exact ih hp (h.write c v) replies
  | stage c v next ih =>
    cases replies with
    | nil => rfl
    | cons reply replies =>
      rw [Program.run, Program.run]
      split
      · exact ih hp ((h.writes reply.writes).write c v) replies
      · rfl
  | eval call next ih =>
    obtain ⟨hcells, hnext⟩ := hp
    have hcall := Call.contents_congr fun c hc => h c (hcells c hc)
    cases replies with
    | nil => rw [Program.run, Program.run, hcall]
    | cons reply replies =>
      have htail := ih reply.result (hnext reply.result) (h.writes reply.writes) replies
      simp only [Program.run]
      rw [hcall, htail]

/-! ### Stages in a row -/

/-- The last call, however it ends. -/
theorem Program.run_eval_done (call : Call κ α) (replies : List (Reply κ α))
    (cells : Cells κ α) :
    ((Program.eval call fun _ => .done).run replies cells).1.calls = [call.contents cells] := by
  cases replies <;> rfl

/-- Stages that write nothing besides: if all of them are granted the rest finds the cells filled,
and otherwise nothing is handed over. -/
theorem Program.run_stages (v : Cells κ α) (cs : List κ) (next : Program κ α)
    {replies : List (Reply κ α)} (h : ∀ reply ∈ replies.take cs.length, reply.writes = [])
    (cells : Cells κ α) :
    ∃ cells', (∀ c ∈ cs, cells' c = v c) ∧ (∀ c, cells c = v c → cells' c = v c) ∧
      ((stages v cs next).run replies cells).1.calls =
        if AllGranted cs.length replies then (next.run (replies.drop cs.length) cells').1.calls
        else [] := by
  induction cs generalizing replies cells with
  | nil => exact ⟨cells, by simp, fun _ hc => hc, by simp [stages]⟩
  | cons c cs ih =>
    cases replies with
    | nil => exact ⟨v, fun _ _ => rfl, fun _ _ => rfl, by simp [stages, run]⟩
    | cons reply replies =>
      simp only [List.length_cons, List.take_succ_cons, List.forall_mem_cons] at h
      obtain ⟨hwrites, hrest⟩ := h
      obtain ⟨cells', hfilled, hkept, hrun⟩ := ih hrest (cells.write c (v c))
      have hc : cells' c = v c := hkept c (if_pos rfl)
      refine ⟨cells', ?_, fun c' hc' => hkept c' ?_, ?_⟩
      · simpa [hc] using hfilled
      · rw [Cells.write]
        split
        · simp_all
        · exact hc'
      · change ((Program.stage c (v c) (stages v cs next)).run (reply :: replies) cells).1.calls = _
        rw [run, hwrites]
        by_cases hgranted : reply.result.isSome = true
        · rw [if_pos hgranted]
          change ((stages v cs next).run replies (cells.write c (v c))).1.calls = _
          simpa [hgranted] using hrun
        · simp [hgranted]

/-! ### Sessions -/

variable {ι ε : Type}

/-- The traces of the inputs in turn, as far as one process gets with them. -/
def session (target : ι → Except ε (Program κ α)) :
    List (ι × List (Reply κ α)) → Cells κ α → Except ε (List (Trace α))
  | [], _ => .ok []
  | (input, replies) :: inputs, cells => do
      let (trace, cells') := (← target input).run replies cells
      if trace.aborted then .ok [trace]
      else .ok (trace :: (← session target inputs cells'))

/-- The trace of an input in a process of its own. -/
def alone (target : ι → Except ε (Program κ α)) (fresh : Cells κ α)
    (input : ι × List (Reply κ α)) : Except ε (Trace α) := do
  .ok ((← target input.1).run input.2 fresh).1

/-- Up to and with the first process that ends early. -/
def upToAbort : List (Trace α) → List (Trace α)
  | [] => []
  | trace :: traces => if trace.aborted then [trace] else trace :: upToAbort traces

/-- A target whose programs are covered, and the same for inputs that are told apart by
nothing it may look at, can take its inputs one after the other. -/
theorem session_eq_alone {target : ι → Except ε (Program κ α)} {same : ι → ι → Prop}
    (h : ∀ input input', same input input' →
      ∃ p, target input = .ok p ∧ target input' = .ok p ∧ p.Covered ∅)
    {inputs inputs' : List (ι × List (Reply κ α))}
    (hsame : List.Forall₂ (fun i i' => same i.1 i'.1 ∧ i.2 = i'.2) inputs inputs')
    (cells fresh : Cells κ α) :
    ∃ traces, inputs'.mapM (alone target fresh) = .ok traces ∧
      session target inputs cells = .ok (upToAbort traces) := by
  induction hsame generalizing cells with
  | nil => exact ⟨[], rfl, rfl⟩
  | @cons input input' inputs inputs' hinput hrest ih =>
    obtain ⟨input, replies⟩ := input
    obtain ⟨input', replies'⟩ := input'
    obtain ⟨hinput, rfl⟩ : same input input' ∧ replies = replies' := hinput
    obtain ⟨p, hp, hp', hcovered⟩ := h input input' hinput
    obtain ⟨traces, halone, hsession⟩ := ih (p.run replies cells).2
    have htrace := hcovered.run_eq (.empty cells fresh) replies
    refine ⟨(p.run replies fresh).1 :: traces, ?_, ?_⟩
    · rw [List.mapM_cons, alone, hp', halone]
      rfl
    · rw [session, hp, upToAbort, ← htrace]
      change (if (p.run replies cells).1.aborted then _ else
        session target inputs (p.run replies cells).2 >>= _) = _
      rw [hsession]
      split <;> rfl

end
end ROssFuzz.StagedCalls
