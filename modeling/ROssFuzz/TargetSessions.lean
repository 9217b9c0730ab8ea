import ROssFuzz.CharacterTarget
import ROssFuzz.EncodingTarget
import ROssFuzz.SlotTargets

/-!
# A session of a target

One process takes inputs until it ends, so a vector still holds what an earlier input put
there, and the stack what an earlier call left. The targets fill what they evaluate. `datetime`
keeps a locale besides, and `eval` a budget; these are treated on their own.
-/

namespace ROssFuzz.TargetSessions
open CheckedOperations HarnessInputs SlotTargets StagedCalls TextTargets

/-- The harnesses, by the names of their files. -/
inductive Target
  | agrep | character | coerce | colors | connections | dcf | decompress | encoding | format | grep
  | io | load | parse | rd | readtable | scan | sort | sprintf | unserialize | zip
  deriving DecidableEq

/-- What the target keeps from one input to the next. -/
def Target.Cell : Target → Type
  | .character => CharacterTarget.Cell
  | .connections => Connections.Cell
  | .encoding => EncodingTarget.Cell
  | .format => Format.Cell
  | .io => Io.Cell
  | .decompress | .sort | .unserialize => ℕ
  | .agrep | .coerce | .colors | .dcf | .grep | .load | .parse | .rd | .readtable | .scan
  | .sprintf | .zip => Unit

instance : (target : Target) → DecidableEq target.Cell
  | .character => inferInstanceAs (DecidableEq CharacterTarget.Cell)
  | .connections => inferInstanceAs (DecidableEq Connections.Cell)
  | .encoding => inferInstanceAs (DecidableEq EncodingTarget.Cell)
  | .format => inferInstanceAs (DecidableEq Format.Cell)
  | .io => inferInstanceAs (DecidableEq Io.Cell)
  | .decompress | .sort | .unserialize => inferInstanceAs (DecidableEq ℕ)
  | .agrep | .coerce | .colors | .dcf | .grep | .load | .parse | .rd | .readtable | .scan
  | .sprintf | .zip => inferInstanceAs (DecidableEq Unit)

/-- `fuzz_target_run`. -/
def Target.fuzzTargetRun (identical : Value → Value → Bool) :
    (target : Target) → Input → Except Stop (Program target.Cell Value)
  | .agrep => Agrep.target.fuzzTargetRun
  | .character => CharacterTarget.fuzzTargetRun
  | .coerce => Coerce.target.fuzzTargetRun
  | .colors => Colors.target.fuzzTargetRun
  | .connections => Connections.fuzzTargetRun
  | .dcf => Dcf.target.fuzzTargetRun
  | .decompress => Decompress.target.fuzzTargetRun
  | .encoding => EncodingTarget.fuzzTargetRun
  | .format => Format.fuzzTargetRun
  | .grep => Grep.target.fuzzTargetRun
  | .io => Io.fuzzTargetRun identical
  | .load => Load.target.fuzzTargetRun
  | .parse => Parse.target.fuzzTargetRun
  | .rd => Rd.target.fuzzTargetRun
  | .readtable => Readtable.target.fuzzTargetRun
  | .scan => Scan.target.fuzzTargetRun
  | .sort => Sorting.fuzzTargetRun
  | .sprintf => Sprintf.target.fuzzTargetRun
  | .unserialize => Unserialize.target.fuzzTargetRun
  | .zip => Zip.target.fuzzTargetRun

theorem Target.determined (identical : Value → Value → Bool) (target : Target) :
    Determined (target.fuzzTargetRun identical) := by
  cases target with
  | agrep | coerce => exact WholeTarget.determined _
  | colors | dcf | grep | parse | rd | readtable | scan | sprintf => exact TextTarget.determined _
  | load | zip => exact FileTarget.determined _
  | decompress | unserialize => exact RawTarget.determined _
  | character => exact CharacterTarget.determined
  | connections => exact Connections.determined
  | encoding => exact EncodingTarget.determined
  | format => exact Format.determined
  | io => exact Io.determined identical
  | sort => exact Sorting.determined

/-- No input leaves a buffer, and as long as R answers the same, a process that has taken other
inputs before hands the same calls over, and aborts at the same inputs, as a new one for each
input with other bytes on its stack. -/
theorem session_eq_fresh (identical : Value → Value → Bool) (target : Target)
    {inputs inputs' : List (Input × List (Reply target.Cell Value))}
    (h : List.Forall₂ (fun i i' => i.1.data = i'.1.data ∧ i.2 = i'.2) inputs inputs')
    (cells fresh : Cells target.Cell Value) :
    ∃ traces, inputs'.mapM (alone (target.fuzzTargetRun identical) fresh) = .ok traces ∧
      session (target.fuzzTargetRun identical) inputs cells = .ok (upToAbort traces) := by
  have hsame : ∀ input input' : Input, input.data = input'.data →
      ∃ p, target.fuzzTargetRun identical input = .ok p ∧
        target.fuzzTargetRun identical input' = .ok p ∧ p.Covered ∅ := by
    intro input input' hdata
    obtain ⟨p, hcovered, hrun⟩ := target.determined identical input.data
    have hrun' := hrun input'.stack
    rw [hdata] at hrun'
    exact ⟨p, hrun input.stack, hrun', hcovered⟩
  exact session_eq_alone hsame h cells fresh

/-- Two inputs of `format`, the first with its evaluation an error. -/
def formatInputs (stack : ℕ → UInt8) : List (Input × List (Reply Target.format.Cell Value)) :=
  [(⟨[0, 1, 2, 3, 4, 0x31], stack⟩, [⟨some .null, []⟩, ⟨none, []⟩]),
    (⟨[1, 0, 0, 0, 0, 0x32], stack⟩, [⟨some .null, []⟩])]

theorem session_eq_fresh_format :
    ∃ traces, (formatInputs fun _ => 0).mapM
        (alone (Target.format.fuzzTargetRun fun _ _ => true) fun _ => .null) = .ok traces ∧
      session (Target.format.fuzzTargetRun fun _ _ => true) (formatInputs UInt8.ofNat)
        (fun _ => .logical true) = .ok (upToAbort traces) := by
  have hsame : List.Forall₂ (fun i i' => i.1.data = i'.1.data ∧ i.2 = i'.2)
      (formatInputs UInt8.ofNat) (formatInputs fun _ => 0) :=
    .cons ⟨rfl, rfl⟩ (.cons ⟨rfl, rfl⟩ .nil)
  exact session_eq_fresh (fun _ _ => true) .format hsame (fun _ => .logical true) fun _ => .null

end ROssFuzz.TargetSessions
