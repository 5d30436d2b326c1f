import KushDB.Khir.LiveIntervals

/-! # Linear scan register allocation

Intervals are handled by increasing start. For each class of registers there is a set of free registers and a set of
active intervals, ordered by their ends. An interval takes a free register, or the register of an active interval that
is cheaper to spill, or it is spilled; a reserved register is taken from whatever value holds it. An active set holds
the numbers of its intervals in the sorted vector. Everything the code leaves open is a choice: the order of equal
starts, the place of an interval among those that end with it, the free register that comes first, and the costs.
-/

namespace KushDB.Khir

def LiveInterval.start (interval : LiveInterval) : Nat :=
  (interval.range.getD (0, 0)).1

def LiveInterval.stop (interval : LiveInterval) : Nat :=
  (interval.range.getD (0, 0)).2

def normalPool : Finset Nat :=
  {1, 2, 3, 4, 5, 8, 9, 10, 11, 12, 13, 14, 15}

def vectorPool : Finset Nat :=
  (Finset.range 15).image VRegister.m

/-- What the code leaves open: the order of intervals with the same start, the first element of a set of free
registers, and where an active set puts an interval among those with the same end. -/
structure Choices where
  sort : List LiveInterval → List LiveInterval
  sort_perm : ∀ intervals, (sort intervals).Perm intervals
  sort_sorted : ∀ intervals, (sort intervals).Pairwise fun a b => a.start ≤ b.start
  pick : Nat → Finset Nat → Nat
  pick_mem : ∀ number free, free.Nonempty → pick number free ∈ free
  insert : (Nat → Nat) → Nat → List Nat → List Nat
  insert_perm : ∀ stop number active, (insert stop number active).Perm (number :: active)
  insert_sorted : ∀ stop number active, active.Pairwise (fun j k => stop j ≤ stop k) →
    (insert stop number active).Pairwise fun j k => stop j ≤ stop k

structure Pool where
  free : Finset Nat
  active : List Nat

structure ScanState where
  intervals : List LiveInterval
  assignments : Nat → Option Nat

section State

variable (state : ScanState)

def ScanState.owner (k : Nat) : Owner :=
  (state.intervals.getD k ⟨none, .virtual 0 .void⟩).owner

def ScanState.startOf (k : Nat) : Nat :=
  (state.intervals.getD k ⟨none, .virtual 0 .void⟩).start

def ScanState.stopOf (k : Nat) : Nat :=
  (state.intervals.getD k ⟨none, .virtual 0 .void⟩).stop

def ScanState.isPrecolored (k : Nat) : Bool :=
  match state.owner k with
  | .precolored _ => true
  | .virtual _ _ => false

/-- The register of an interval: the reserved one, or the one assigned to its value. -/
def ScanState.registerOf (k : Nat) : Option Nat :=
  match state.owner k with
  | .precolored register => some register
  | .virtual v _ => state.assignments v

def ScanState.assign (k : Nat) (register : Option Nat) : ScanState :=
  match state.owner k with
  | .precolored _ => state
  | .virtual v _ => { state with assignments := Function.update state.assignments v register }

def ScanState.changeToPrecolored (k register : Nat) : ScanState :=
  { state with intervals := state.intervals.modify k (·.changeToPrecolored register) }

end State

section Pools

variable (choices : Choices) (cost : Nat → Nat)

/-- Intervals that end before the current start give their registers back. -/
def expireOldIntervals (state : ScanState) (start : Nat) : Finset Nat → List Nat → Pool
  | free, [] => ⟨free, []⟩
  | free, j :: rest =>
    if state.stopOf j ≥ start then ⟨free, j :: rest⟩
    else expireOldIntervals state start (free ∪ (state.registerOf j).toFinset) rest

/-- The first of the cheapest intervals that are not precolored, if it is cheaper than the bound. -/
def cheapest (state : ScanState) : Option Nat → List Nat → Option Nat
  | _, [] => none
  | bound, j :: rest =>
    match state.owner j with
    | .precolored _ => cheapest state bound rest
    | .virtual v _ =>
      if bound.all (cost v < ·) then some ((cheapest state (some (cost v)) rest).getD j)
      else cheapest state bound rest

def spill (state : ScanState) (pool : Pool) (j : Nat) : ScanState × Pool :=
  (state.assign j none, ⟨pool.free ∪ (state.registerOf j).toFinset, pool.active.erase j⟩)

def spillMinCost (state : ScanState) (pool : Pool) : Except String (Nat × ScanState × Pool) :=
  if pool.active.isEmpty then .error "Nothing to spill."
  else match cheapest cost state none pool.active with
    | none => .error "No spillable register exists"
    | some j => .ok ((state.registerOf j).getD 0, spill state pool j)

def maybeSpillMinCost (state : ScanState) (pool : Pool) (maybe : Nat) :
    Except String (Option (Nat × ScanState × Pool)) :=
  if pool.active.isEmpty then .error "Nothing to spill."
  else match cheapest cost state (some maybe) pool.active with
    | none => .ok none
    | some j => .ok (some ((state.registerOf j).getD 0, spill state pool j))

def occupy (state : ScanState) (pool : Pool) (number register : Nat) : Pool :=
  ⟨pool.free.erase register, choices.insert state.stopOf number pool.active⟩

def addPrecoloredInterval (state : ScanState) (pool : Pool) (number : Nat) : Except String (ScanState × Pool) :=
  match state.owner number with
  | .precolored register =>
    if register ∈ pool.free then .ok (state, occupy choices state pool number register)
    else match pool.active.find? fun j => state.registerOf j == some register with
      | none => .error s!"Register should have been in free: {register}"
      | some j =>
        if state.isPrecolored j then .error "Two precolored intervals conflicting."
        else .ok (state.assign j none, ⟨pool.free, choices.insert state.stopOf number (pool.active.erase j)⟩)
  | .virtual _ _ =>
    if pool.free.Nonempty then
      let register := choices.pick number pool.free
      .ok (state.changeToPrecolored number register, occupy choices state pool number register)
    else do
      let (register, state, pool) ← spillMinCost cost state pool
      return (state.changeToPrecolored number register, occupy choices state pool number register)

def spillAtInterval (state : ScanState) (pool : Pool) (number value : Nat) : Except String (ScanState × Pool) :=
  if pool.free.Nonempty then
    let register := choices.pick number pool.free
    .ok (state.assign number (some register), occupy choices state pool number register)
  else do
    match ← maybeSpillMinCost cost state pool (cost value) with
    | none => return (state.assign number none, pool)
    | some (register, state, pool) =>
      return (state.assign number (some register), occupy choices state pool number register)

end Pools

/-- How the allocator treats the value of an opcode. -/
inductive AllocForm
  | intCompare | floatCompare | maskStore | store | other

def Opcode.allocForm : Opcode → AllocForm
  | .i1CmpEq | .i1CmpNe | .i8CmpEq | .i8CmpNe | .i8CmpLt | .i8CmpLe | .i8CmpGt | .i8CmpGe | .i16CmpEq | .i16CmpNe
  | .i16CmpLt | .i16CmpLe | .i16CmpGt | .i16CmpGe | .i32CmpEq | .i32CmpNe | .i32CmpLt | .i32CmpLe | .i32CmpGt
  | .i32CmpGe | .i64CmpEq | .i64CmpNe | .i64CmpLt | .i64CmpLe | .i64CmpGt | .i64CmpGe | .i32CmpEqAnyConstVec4
  | .i32CmpEqAnyConstVec8 => .intCompare
  | .f64CmpEq | .f64CmpNe | .f64CmpLt | .f64CmpLe | .f64CmpGt | .f64CmpGe => .floatCompare
  | .i32Vec8MaskStore => .maskStore
  | .i8Store | .i16Store | .i32Store | .i64Store | .ptrStore => .store
  | _ => .other

def TypeKind.isVector : TypeKind → Bool
  | .f64 | .i32Vec8 | .i1Vec8 => true
  | _ => false

section Scan

variable (f : Function) (choices : Choices) (cost : Nat → Nat)

structure Scan where
  state : ScanState
  normal : Pool
  vector : Pool

def setRegister (state : ScanState) (v : Nat) (register : Option Nat) : ScanState :=
  { state with assignments := Function.update state.assignments v register }

/-- A compare stays in the flags when only the branch directly after it reads it. -/
def assignFlag (state : ScanState) (number v flag : Nat) : ScanState :=
  if state.startOf number + 1 = state.stopOf number ∧ f.opcode (v + 1) = .condbr then setRegister state v (some flag)
  else state

def expireScan (scan : Scan) (number : Nat) : Scan :=
  let start := scan.state.startOf number
  ⟨scan.state, expireOldIntervals scan.state start scan.normal.free scan.normal.active,
    expireOldIntervals scan.state start scan.vector.free scan.vector.active⟩

def handleInterval (scan : Scan) (number : Nat) : Except String Scan :=
  match scan.state.owner number with
  | .precolored register =>
    if VRegister.isVRegister register then do
      let (state, vector) ← addPrecoloredInterval choices cost scan.state scan.vector number
      return ⟨state, scan.normal, vector⟩
    else if GPRegister.isGPRegister register then do
      let (state, normal) ← addPrecoloredInterval choices cost scan.state scan.normal number
      return ⟨state, normal, scan.vector⟩
    else .error "Invalid precolored register"
  | .virtual v type =>
    match (f.opcode v).allocForm with
    | .intCompare => .ok { scan with state := assignFlag f scan.state number v FRegister.iFlag }
    | .floatCompare => .ok { scan with state := assignFlag f scan.state number v FRegister.fFlag }
    | .maskStore => do
      let (state, vector) ← addPrecoloredInterval choices cost scan.state scan.vector number
      return ⟨setRegister state v (state.registerOf number), scan.normal, vector⟩
    | .store => do
      let (state, normal) ← addPrecoloredInterval choices cost scan.state scan.normal number
      return ⟨setRegister state v (state.registerOf number), normal, scan.vector⟩
    | .other =>
      if type.isVector then do
        let (state, vector) ← spillAtInterval choices cost scan.state scan.vector number v
        return ⟨state, scan.normal, vector⟩
      else do
        let (state, normal) ← spillAtInterval choices cost scan.state scan.normal number v
        return ⟨state, normal, scan.vector⟩

def initialScan (intervals : List LiveInterval) : Scan :=
  ⟨⟨intervals, fun _ => none⟩, ⟨normalPool, []⟩, ⟨vectorPool, []⟩⟩

def scanSorted (intervals : List LiveInterval) : Except String Scan :=
  (List.range intervals.length).foldlM (fun scan number => handleInterval f choices cost (expireScan scan number) number)
    (initialScan intervals)

def linearScanRegisterAlloc (rounds : Nat) : Except String (Nat → Option Nat) := do
  let intervals ← computeLiveIntervals f rounds
  let scan ← scanSorted f choices cost (choices.sort intervals)
  return scan.state.assignments

end Scan

end KushDB.Khir
