import KushDB.Library.Liveness
import KushDB.Khir.ReadWrite

/-! # Live intervals

Liveness is computed over the blocks with a worklist, and one backward pass over every block then widens an interval
for each value to all the places where the value is live. Fixed intervals reserve registers for parameters, for the
arguments of calls and for what a call overwrites. Reading a table past its end and looking up a missing place are
errors here. The costs of spilling are left to the caller.
-/

namespace KushDB.Khir

open Liveness

namespace GPRegister

def rax := 0
def rcx := 2
def rdx := 3
def rsi := 4
def rdi := 5

def isGPRegister (id : Nat) : Bool :=
  id ≤ 15

end GPRegister

namespace VRegister

/-- The vector register with the given number, from 0 to 15. -/
def m (number : Nat) := 50 + number

def isVRegister (id : Nat) : Bool :=
  50 ≤ id && id ≤ 65

end VRegister

namespace FRegister

def iFlag := 100
def fFlag := 101

end FRegister

open GPRegister in
def normalArgReg : List Nat :=
  [rdi, rsi, rdx, rcx, 8, 9]

def fpArgReg : List Nat :=
  (List.range 8).map VRegister.m

def normalCallerSave : List Nat :=
  [10, 11]

def fpCallerSave : List Nat :=
  [8, 9, 10, 11, 12, 13, 14].map VRegister.m

/-- An interval belongs to a value, or it reserves a register. -/
inductive Owner
  | virtual (value : Nat) (type : TypeKind)
  | precolored (register : Nat)
  deriving DecidableEq, Repr

structure LiveInterval where
  range : Option (Nat × Nat)
  owner : Owner
  deriving DecidableEq, Repr

def LiveInterval.extend (interval : LiveInterval) (x : Nat) : LiveInterval :=
  match interval.range with
  | none => { interval with range := some (x, x) }
  | some (first, last) => { interval with range := some (min first x, max last x) }

def LiveInterval.changeToPrecolored (interval : LiveInterval) (register : Nat) : LiveInterval :=
  { interval with owner := .precolored register }

def LiveInterval.undef (interval : LiveInterval) : Bool :=
  interval.range.isNone

def LiveInterval.contains (interval : LiveInterval) (x : Nat) : Prop :=
  ∃ first last, interval.range = some (first, last) ∧ first ≤ x ∧ x ≤ last

section Liveness

variable (f : Function)

def readsAt (point : Nat × Nat) : Except String (List Nat) :=
  getReadValues f.toBody f.computeGEPMaterialize point.1 point.2

def writtenAt (point : Nat × Nat) : Option Nat :=
  getWrittenValue f.toBody f.computeGEPMaterialize point.2

def externalStep (state : Finset Nat × Finset Nat) (point : Nat × Nat) : Except String (Finset Nat × Finset Nat) := do
  let reads ← readsAt f point
  return (state.1 ∪ (reads.toFinset \ state.2), state.2 ∪ (writtenAt f point).toFinset)

/-- The first pass over a block reads every instruction, so no later pass can fail. -/
def addExternalUses (b : Nat) : Except String (Finset Nat × Finset Nat) :=
  (f.block b).points.foldlM (externalStep f) (∅, ∅)

def readValues (point : Nat × Nat) : List Nat :=
  match readsAt f point with
  | .ok reads => reads
  | .error _ => []

def stepAt (point : Nat × Nat) : Step Nat :=
  ⟨readValues f point, writtenAt f point⟩

def flowGraph : Graph Nat where
  size := f.basicBlocks.length
  steps b := (f.block b).points.map (stepAt f)
  successors b := (f.block b).successors
  inside := f.wellFormed.successors_lt

def computeLiveIn (rounds : Nat) (uses : List (Finset Nat)) : Option (Nat → Finset Nat) :=
  Worklist.run (flowGraph f).demand (fun b => (f.block b).predecessors) rounds (fun b => uses.getD b ∅)
    (List.range f.basicBlocks.length).reverse

def extendAll (live : Finset Nat) (position : Nat) (intervals : List LiveInterval) : List LiveInterval :=
  intervals.mapIdx fun v interval => if v ∈ live then interval.extend position else interval

def scanStep (b : Nat) (point : Nat × Nat) (state : Finset Nat × List LiveInterval) :
    Finset Nat × List LiveInterval :=
  let position := f.position b point.2
  let live := (stepAt f point).before state.1
  (live, extendAll live position (extendAll state.1 position state.2))

/-- The backward pass over a block, which has to end in what is live before it. -/
def scanBlock (liveIn : Nat → Finset Nat) (intervals : List LiveInterval) (b : Nat) :
    Except String (List LiveInterval) :=
  let result := (f.block b).points.foldr (scanStep f b) ((flowGraph f).liveOut liveIn b, intervals)
  if result.1 ≠ liveIn b then .error "Invalid liveness" else .ok result.2

def initialIntervals : List LiveInterval :=
  f.instrs.mapIdx fun i instr => ⟨none, .virtual i instr.typeOf⟩

def liveInSets (rounds : Nat) : Except String (Nat → Finset Nat) := do
  let uses ← (List.range f.basicBlocks.length).mapM (addExternalUses f)
  match computeLiveIn f rounds (uses.map Prod.fst) with
  | none => .error "out of rounds"
  | some liveIn => .ok liveIn

def scanIntervals (rounds : Nat) : Except String (List LiveInterval) := do
  let liveIn ← liveInSets f rounds
  (List.range f.basicBlocks.length).foldlM (scanBlock f liveIn) (initialIntervals f)

end Liveness

section Fixed

variable (f : Function)

/-- Each store keeps a register to itself while it runs. -/
def extendStores (intervals : List LiveInterval) : List LiveInterval :=
  f.places.foldl (fun intervals place =>
    if (f.opcode place.2).isStore then intervals.modify place.2 (·.extend (f.position place.1 place.2))
    else intervals) intervals

/-- `at` of the map from places to positions. -/
def instrMapAt (b i : Nat) : Except String Nat :=
  if (b, i) ∈ f.places then .ok (f.position b i) else .error "instr_map: no such place"

/-- A register reserved for each parameter from the start of the function up to where it is taken. -/
def funcArgIntervals : List Instr → Nat → Nat → Nat → Except String (List LiveInterval)
  | [], _, _, _ => .ok []
  | instr :: rest, i, normal, fp =>
    if instr.opcode ≠ .funcArg then .ok []
    else do
      let register ← match (if instr.typeId = .f64 then fpArgReg[fp]? else normalArgReg[normal]?) with
        | some register => Except.ok register
        | none => .error "argument register out of range"
      let first ← instrMapAt f 0 0
      let last ← instrMapAt f 0 i
      let others ← if instr.typeId = .f64 then funcArgIntervals rest (i + 1) normal (fp + 1)
        else funcArgIntervals rest (i + 1) (normal + 1) fp
      return ⟨some (min first last, max first last), .precolored register⟩ :: others

structure ClobberState where
  intervals : List LiveInterval
  fixed : List LiveInterval
  normalArgCtr : Nat
  fpArgCtr : Nat

/-- An argument takes the next register of its class; a call reserves all the others that it overwrites. -/
def clobberStep (state : ClobberState) (place : Nat × Nat) : ClobberState :=
  match f.opcode place.2 with
  | .callArg =>
    if (f.instr place.2).typeOf = .f64 then
      { state with
        intervals := match fpArgReg[state.fpArgCtr]? with
          | some register => state.intervals.modify place.2 (·.changeToPrecolored register)
          | none => state.intervals
        fpArgCtr := state.fpArgCtr + 1 }
    else
      { state with
        intervals := match normalArgReg[state.normalArgCtr]? with
          | some register => state.intervals.modify place.2 (·.changeToPrecolored register)
          | none => state.intervals
        normalArgCtr := state.normalArgCtr + 1 }
  | .callIndirect | .call =>
    let position := f.position place.1 place.2
    let clobbered := normalArgReg.drop state.normalArgCtr ++ fpArgReg.drop state.fpArgCtr ++ normalCallerSave ++
      fpCallerSave
    { state with
      fixed := state.fixed ++ clobbered.map fun register => ⟨some (position, position), .precolored register⟩
      normalArgCtr := 0
      fpArgCtr := 0 }
  | _ => state

def addClobbers (intervals : List LiveInterval) : ClobberState :=
  f.places.foldl (clobberStep f) ⟨intervals, [], 0, 0⟩

def computeLiveIntervals (rounds : Nat) : Except String (List LiveInterval) := do
  let intervals ← scanIntervals f rounds
  let parameters ← funcArgIntervals f f.instrs 0 0 0
  let final := addClobbers f (extendStores f intervals)
  return (final.intervals ++ parameters ++ final.fixed).filter fun interval => !interval.undef

end Fixed

end KushDB.Khir
