import Mathlib.Algebra.Order.Ring.Int
import Mathlib.Data.Int.Interval
import Mathlib.Data.List.Range
import Mathlib.Tactic.Linarith
import KushDB.Library.Fallible

/-! # Split pipelines

A pipeline with a driver runs its body on one chunk of the driver's tuples after the other. In the adaptive mode the
first chunks run unoptimised, and the time they took decides which body runs the rest. The loops compute with 32 bit
integers, and an overflow of a signed integer is undefined: every addition and subtraction is checked.
-/

namespace KushDB.Execution

open Fallible List

def int32 (x : Int) : Int := x.bmod (2 ^ 32)

variable {x inputSize nextTuple : Int} {rounds : Nat}

theorem int32_eq (hLow : -(2 ^ 31) ≤ x) (hHigh : x < 2 ^ 31) : int32 x = x := by
  unfold int32
  rw [Int.bmod_eq_of_le] <;> omega

def chunkSize : Int := 2 ^ 13

inductive Fault
  | overflow
  | outOfRounds
deriving DecidableEq, Repr

def checked (x : Int) : Except Fault Int :=
  if -(2 ^ 31) ≤ x ∧ x < 2 ^ 31 then .ok x else .error .overflow

/-- `next_tuple + CHUNK_SIZE - 1` is evaluated from left to right. -/
def checkedChunkEnd (nextTuple inputSize : Int) : Except Fault Int := do
  let past ← checked (nextTuple + chunkSize)
  let last ← checked (past - 1)
  let lastTuple ← checked (inputSize - 1)
  return min last lastTuple

/-- One round: the arguments of the call and the next tuple. -/
def checkedRound (nextTuple inputSize : Int) : Except Fault ((Int × Int) × Int) := do
  let last ← checkedChunkEnd nextTuple inputSize
  let next ← checked (last + 1)
  return ((nextTuple, last), next)

/-- The calls of the body from `nextTuple` on. The bound is on the number of rounds. -/
def checkedSplitLoop (inputSize : Int) : Nat → Int → Except Fault (List (Int × Int))
  | 0, _ => .error .outOfRounds
  | rounds + 1, nextTuple =>
    if nextTuple < inputSize then do
      let (call, next) ← checkedRound nextTuple inputSize
      let rest ← checkedSplitLoop inputSize rounds next
      return call :: rest
    else .ok []

def executeSplitPipelineStatic (inputSize : Int) (rounds : Nat) : Except Fault (List (Int × Int)) :=
  checkedSplitLoop inputSize rounds 0

/-- The first chunks of the adaptive mode: at most as many as `count` says. -/
def checkedMeasuredLoop (inputSize : Int) : Nat → Int → Except Fault (List (Int × Int) × Int)
  | 0, nextTuple => .ok ([], nextTuple)
  | count + 1, nextTuple =>
    if nextTuple < inputSize then do
      let (call, next) ← checkedRound nextTuple inputSize
      let (rest, next) ← checkedMeasuredLoop inputSize count next
      return (call :: rest, next)
    else .ok ([], nextTuple)

def threshold : Nat := 2

def executeSplitPipelineAdaptive (inputSize : Int) (rounds : Nat) : Except Fault (List (Int × Int)) := do
  let (measured, nextTuple) ← checkedMeasuredLoop inputSize threshold 0
  if nextTuple < inputSize then
    -- the tuples left, for the estimate of the time they take
    let _ ← checked (inputSize - nextTuple)
    let rest ← checkedSplitLoop inputSize rounds nextTuple
    return measured ++ rest
  else return measured

/-- `optimised` is what the measured times decide. -/
inductive PipelineMode
  | static
  | adaptive (optimised : Bool)

/-- The calls of a split pipeline. Which body is called after the measurement does not change the arguments. -/
def checkedSplitPipeline (mode : PipelineMode) (inputSize : Int) (rounds : Nat) : Except Fault (List (Int × Int)) :=
  match mode with
  | .static => executeSplitPipelineStatic inputSize rounds
  | .adaptive _ => executeSplitPipelineAdaptive inputSize rounds

/-- What the calls hand out, for two bodies that hand out the same. -/
def executeSplitPipeline {C : Type} (mode : PipelineMode) (body : Int → Int → List C) (inputSize : Int) (rounds : Nat) :
    Except Fault (List C) := do
  let calls ← checkedSplitPipeline mode inputSize rounds
  return calls.flatMap fun call => body call.1 call.2

/-! ## One round -/

theorem checked_of_fits (hLow : 0 ≤ x) (hHigh : x < 2 ^ 31) : checked x = .ok x :=
  if_pos ⟨by omega, hHigh⟩

theorem checkedRound_ok (hNext : 0 ≤ nextTuple) (hLt : nextTuple < inputSize) (hFits : inputSize < 2 ^ 31)
    (hRoom : nextTuple + chunkSize < 2 ^ 31) :
    checkedRound nextTuple inputSize =
      .ok ((nextTuple, min (nextTuple + chunkSize - 1) (inputSize - 1)),
        min (nextTuple + chunkSize - 1) (inputSize - 1) + 1) := by
  unfold chunkSize at hRoom ⊢
  have hEnd : checkedChunkEnd nextTuple inputSize = .ok (min (nextTuple + 2 ^ 13 - 1) (inputSize - 1)) := by
    rw [checkedChunkEnd, chunkSize, checked_of_fits (by omega) hRoom]
    change (checked (nextTuple + 2 ^ 13 - 1) >>= _) = _
    rw [checked_of_fits (by omega) (by omega)]
    change (checked (inputSize - 1) >>= _) = _
    rw [checked_of_fits (by omega) (by omega)]
    rfl
  rw [checkedRound, hEnd]
  change (checked _ >>= _) = _
  rw [checked_of_fits (by omega) (by omega)]
  rfl

theorem checkedRound_overflow (hFull : 2 ^ 31 ≤ nextTuple + chunkSize) :
    checkedRound nextTuple inputSize = .error .overflow := by
  rw [checkedRound, checkedChunkEnd, checked, if_neg (by omega)]
  rfl

/-! ## The loops -/

/-- The call for a chunk by its number. -/
def chunkCall (inputSize number : Nat) : Int × Int :=
  ((8192 * number : Nat), (min (8192 * number + 8191) (inputSize - 1) : Nat))

def numChunks (inputSize : Nat) : Nat := (inputSize + 8191) / 8192

theorem checkedSplitLoop_of_le (h : inputSize ≤ nextTuple) (hRounds : 0 < rounds) :
    checkedSplitLoop inputSize rounds nextTuple = .ok [] := by
  cases rounds with
  | zero => exact absurd hRounds (Nat.lt_irrefl 0)
  | succ rounds => rw [checkedSplitLoop, if_neg (not_lt.mpr h)]

/-- The loop calls the body for the chunks in turn, as long as the end of a chunk is an integer. -/
theorem checkedSplitLoop_eq {inputSize : Nat} (hRoom : inputSize ≤ 2 ^ 31 - 2 ^ 13) {first count rounds : Nat}
    (hCount : first + count = max first (numChunks inputSize)) (hRounds : count < rounds) :
    checkedSplitLoop inputSize rounds (8192 * first : Nat) = .ok ((List.range' first count).map (chunkCall inputSize)) := by
  induction count generalizing first rounds with
  | zero =>
    have hLe : (inputSize : Int) ≤ (8192 * first : Nat) := by
      unfold numChunks at hCount
      omega
    exact checkedSplitLoop_of_le hLe hRounds
  | succ count ih =>
    obtain ⟨rounds, rfl⟩ : ∃ rest, rounds = rest + 1 := Nat.exists_eq_succ_of_ne_zero (by omega)
    have hLt : ((8192 * first : Nat) : Int) < inputSize := by
      unfold numChunks at hCount
      omega
    have hLast : min (((8192 * first : Nat) : Int) + chunkSize - 1) (inputSize - 1) =
        (min (8192 * first + 8191) (inputSize - 1) : Nat) := by
      unfold chunkSize
      omega
    have hRest : checkedSplitLoop inputSize rounds ((min (8192 * first + 8191) (inputSize - 1) : Nat) + 1) =
        .ok ((List.range' (first + 1) count).map (chunkCall inputSize)) := by
      by_cases hMore : 8192 * (first + 1) ≤ inputSize
      · rw [show ((min (8192 * first + 8191) (inputSize - 1) : Nat) : Int) + 1 = (8192 * (first + 1) : Nat) by omega]
        exact ih (by unfold numChunks at hCount ⊢; omega) (by omega)
      · obtain rfl : count = 0 := by
          unfold numChunks at hCount
          omega
        exact checkedSplitLoop_of_le (by omega) (by omega)
    rw [checkedSplitLoop, if_pos hLt, checkedRound_ok (by omega) hLt (by omega) (by unfold chunkSize; omega), hLast]
    simp only [bind, Except.bind, hRest]
    rfl

/-- The last chunk below the largest integer cannot be computed. -/
theorem checkedSplitLoop_overflow (hFull : 2 ^ 31 - chunkSize < inputSize) (hFits : inputSize < 2 ^ 31) (left : Nat)
    (hRounds : left < rounds) (hNext : 0 ≤ nextTuple) (hLeft : nextTuple + chunkSize * left = 2 ^ 31 - chunkSize) :
    checkedSplitLoop inputSize rounds nextTuple = .error .overflow := by
  induction left generalizing rounds nextTuple with
  | zero =>
    obtain ⟨rounds, rfl⟩ := Nat.exists_eq_succ_of_ne_zero (Nat.ne_of_gt hRounds)
    rw [checkedSplitLoop, if_pos (by omega), checkedRound_overflow (by omega)]
    rfl
  | succ left ih =>
    obtain ⟨rounds, rfl⟩ := Nat.exists_eq_succ_of_ne_zero (Nat.ne_of_gt (Nat.zero_lt_of_lt hRounds))
    unfold chunkSize at hFull hLeft ih
    have hRest := @ih (nextTuple + 2 ^ 13) rounds (by omega) (by omega) (by omega)
    rw [checkedSplitLoop, if_pos (by omega), checkedRound_ok hNext (by omega) hFits (by unfold chunkSize; omega)]
    have hEnd : min (nextTuple + chunkSize - 1) (inputSize - 1) + 1 = nextTuple + 2 ^ 13 := by
      unfold chunkSize
      omega
    simp only [bind, Except.bind, hEnd, hRest]

/-- Measuring some rounds first gives the calls of one loop. -/
theorem checkedSplitLoop_measured (inputSize : Int) (count : Nat) (hRounds : 0 < rounds) (nextTuple : Int) :
    checkedSplitLoop inputSize (count + rounds) nextTuple = (do
      let (measured, next) ← checkedMeasuredLoop inputSize count nextTuple
      let rest ← checkedSplitLoop inputSize rounds next
      return measured ++ rest) := by
  induction count generalizing nextTuple with
  | zero =>
    rw [Nat.zero_add]
    simp only [checkedMeasuredLoop, bind, Except.bind]
    cases checkedSplitLoop inputSize rounds nextTuple <;> rfl
  | succ count ih =>
    rw [Nat.add_right_comm, checkedSplitLoop, checkedMeasuredLoop]
    split
    case isTrue hLt =>
      cases hRound : checkedRound nextTuple inputSize with
      | error fault => rfl
      | ok result =>
        obtain ⟨call, next⟩ := result
        simp only [bind, Except.bind, ih]
        cases checkedMeasuredLoop inputSize count next with
        | error fault => rfl
        | ok measured =>
          obtain ⟨calls, last⟩ := measured
          simp only [pure, Except.pure]
          cases checkedSplitLoop inputSize rounds last <;> rfl
    case isFalse hLt =>
      obtain ⟨rounds, rfl⟩ := Nat.exists_eq_succ_of_ne_zero hRounds.ne'
      simp [bind, Except.bind, checkedSplitLoop, hLt, pure, Except.pure]

theorem checked_eq_ok {y : Int} : checked x = .ok y ↔ x = y ∧ -(2 ^ 31) ≤ x ∧ x < 2 ^ 31 := by
  rw [checked]
  split
  case isTrue h =>
    rw [Except.ok.injEq]
    exact ⟨fun hEq => ⟨hEq, h⟩, fun hEq => hEq.1⟩
  case isFalse h => exact ⟨fun hEq => absurd hEq (by simp), fun hEq => absurd hEq.2 h⟩

variable {next : Int} {inputSize : Nat}

theorem checkedRound_next {call : Int × Int} (h : checkedRound nextTuple inputSize = .ok (call, next)) :
    next = min (nextTuple + chunkSize - 1) (inputSize - 1) + 1 := by
  obtain ⟨last, hLast, h⟩ := bind_eq_ok.mp h
  obtain ⟨after, hAfter, h⟩ := bind_eq_ok.mp h
  obtain ⟨past, hPast, hLast⟩ := bind_eq_ok.mp hLast
  obtain ⟨final, hFinal, hLast⟩ := bind_eq_ok.mp hLast
  obtain ⟨lastTuple, hLastTuple, hLast⟩ := bind_eq_ok.mp hLast
  obtain ⟨rfl, -⟩ := checked_eq_ok.mp hPast
  obtain ⟨rfl, -⟩ := checked_eq_ok.mp hFinal
  obtain ⟨rfl, -⟩ := checked_eq_ok.mp hLastTuple
  obtain ⟨rfl, -⟩ := checked_eq_ok.mp hAfter
  obtain rfl := Except.ok.inj hLast
  obtain ⟨-, rfl⟩ := Prod.mk.inj (Except.ok.inj h)
  rfl

theorem checkedMeasuredLoop_nonneg {count : Nat} {calls : List (Int × Int)} (hNext : 0 ≤ nextTuple)
    (h : checkedMeasuredLoop inputSize count nextTuple = .ok (calls, next)) : 0 ≤ next := by
  induction count generalizing nextTuple next calls with
  | zero =>
    obtain ⟨-, rfl⟩ := Prod.mk.inj (Except.ok.inj h)
    exact hNext
  | succ count ih =>
    rw [checkedMeasuredLoop] at h
    split at h
    case isTrue hLt =>
      obtain ⟨⟨call, after⟩, hRound, h⟩ := bind_eq_ok.mp h
      obtain ⟨⟨rest, last⟩, hRest, h⟩ := bind_eq_ok.mp h
      obtain ⟨-, rfl⟩ := Prod.mk.inj (Except.ok.inj h)
      have hAfter := checkedRound_next hRound
      apply ih _ hRest
      unfold chunkSize at hAfter
      omega
    case isFalse hLt =>
      obtain ⟨-, rfl⟩ := Prod.mk.inj (Except.ok.inj h)
      exact hNext

/-! ## Both modes -/

/-- The rounds of the one loop that makes the calls of both loops of a mode. -/
def PipelineMode.totalRounds : PipelineMode → Nat → Nat
  | .static, rounds => rounds
  | .adaptive _, rounds => threshold + rounds

theorem le_totalRounds (mode : PipelineMode) (rounds : Nat) : rounds ≤ mode.totalRounds rounds := by
  cases mode with
  | static => exact Nat.le_refl _
  | adaptive optimised => exact Nat.le_add_left _ _

theorem checkedSplitPipeline_eq (mode : PipelineMode) (hFits : inputSize < 2 ^ 31) (hRounds : 0 < rounds) :
    checkedSplitPipeline mode inputSize rounds = checkedSplitLoop inputSize (mode.totalRounds rounds) 0 := by
  cases mode with
  | static => rfl
  | adaptive optimised =>
    rw [PipelineMode.totalRounds, checkedSplitLoop_measured inputSize threshold hRounds, checkedSplitPipeline,
      executeSplitPipelineAdaptive]
    cases hMeasured : checkedMeasuredLoop inputSize threshold 0 with
    | error fault => rfl
    | ok result =>
      obtain ⟨measured, next⟩ := result
      have hNext : 0 ≤ next := checkedMeasuredLoop_nonneg (Int.le_refl 0) hMeasured
      simp only [bind, Except.bind]
      split
      case isTrue hLt => rw [checked, if_pos (by omega)]
      case isFalse hLt =>
        obtain ⟨rounds, rfl⟩ := Nat.exists_eq_succ_of_ne_zero hRounds.ne'
        simp [checkedSplitLoop, hLt]

/-- In either mode the body is called for every chunk once and in order. -/
theorem checkedSplitPipeline_chunks (mode : PipelineMode) (hRoom : inputSize ≤ 2 ^ 31 - 2 ^ 13)
    (hRounds : numChunks inputSize < rounds) :
    checkedSplitPipeline mode inputSize rounds = .ok ((List.range (numChunks inputSize)).map (chunkCall inputSize)) := by
  have hTotal := le_totalRounds mode rounds
  have hLoop := @checkedSplitLoop_eq inputSize hRoom 0 (numChunks inputSize) (mode.totalRounds rounds) (by omega)
    (by omega)
  rw [checkedSplitPipeline_eq mode (by omega) (by omega), range_eq_range']
  exact hLoop

theorem checkedSplitPipeline_overflow (mode : PipelineMode) (hFits : inputSize < 2 ^ 31)
    (hFull : 2 ^ 31 - 2 ^ 13 < inputSize) (hRounds : 2 ^ 18 < rounds) :
    checkedSplitPipeline mode inputSize rounds = .error .overflow := by
  have hTotal := le_totalRounds mode rounds
  rw [checkedSplitPipeline_eq mode (by omega) (by omega)]
  exact checkedSplitLoop_overflow (by unfold chunkSize; omega) (by omega) (2 ^ 18 - 1) (by omega) (Int.le_refl 0)
    (by unfold chunkSize; omega)

section Bodies

variable {C : Type}

/-- What the body hands out for a chunk. -/
def chunk (inputSize : Nat) (body : Int → Int → List C) (number : Nat) : List C :=
  body (chunkCall inputSize number).1 (chunkCall inputSize number).2

variable {inputSize rounds : Nat}

theorem executeSplitPipeline_eq (mode : PipelineMode) (body : Int → Int → List C) (hRoom : inputSize ≤ 2 ^ 31 - 2 ^ 13)
    (hRounds : numChunks inputSize < rounds) :
    executeSplitPipeline mode body inputSize rounds =
      .ok ((List.range (numChunks inputSize)).flatMap (chunk inputSize body)) := by
  rw [executeSplitPipeline, checkedSplitPipeline_chunks mode hRoom hRounds]
  change Except.ok (((List.range (numChunks inputSize)).map (chunkCall inputSize)).flatMap _) = _
  rw [flatMap_map]
  rfl

theorem executeSplitPipeline_overflow (mode : PipelineMode) (body : Int → Int → List C) (hFits : inputSize < 2 ^ 31)
    (hFull : 2 ^ 31 - 2 ^ 13 < inputSize) (hRounds : 2 ^ 18 < rounds) :
    executeSplitPipeline mode body inputSize rounds = .error .overflow := by
  rw [executeSplitPipeline, checkedSplitPipeline_overflow mode hFits hFull hRounds]
  rfl

end Bodies

end KushDB.Execution
