import Mathlib.Algebra.GroupWithZero.Nat
import Mathlib.Data.List.Nodup
import Mathlib.Data.List.Flatten
import KushDB.Khir.Instruction

/-! # Functions of the intermediate representation

A function is one vector of instructions and a list of basic blocks. A block owns a list of segments, each an inclusive
range of instruction numbers, together with its successors and predecessors. Reading the blocks in order and the
segments of each block in order gives every instruction a place in one linear numbering.
-/

namespace KushDB.Khir

open List

structure BasicBlock where
  segments : List (Nat × Nat)
  successors : List Nat
  predecessors : List Nat
  deriving DecidableEq, Repr

instance : Inhabited BasicBlock := ⟨⟨[], [], []⟩⟩

def segmentIndices (segment : Nat × Nat) : List Nat :=
  List.range' segment.1 (segment.2 + 1 - segment.1)

/-- The instructions of a block in order, each with the start of its segment. -/
def BasicBlock.points (block : BasicBlock) : List (Nat × Nat) :=
  block.segments.flatMap fun segment => (segmentIndices segment).map fun i => (segment.1, i)

def BasicBlock.code (block : BasicBlock) : List Nat :=
  block.points.map Prod.snd

structure Body where
  instrs : List Instr
  basicBlocks : List BasicBlock
  deriving DecidableEq, Repr

def Body.instr (body : Body) (i : Nat) : Instr :=
  body.instrs.getD i default

def Body.opcode (body : Body) (i : Nat) : Opcode :=
  (body.instr i).opcode

def Body.block (body : Body) (b : Nat) : BasicBlock :=
  body.basicBlocks.getD b default

/-- Every instruction with the number of its block, in linear order. -/
def Body.places (body : Body) : List (Nat × Nat) :=
  (List.range body.basicBlocks.length).flatMap fun b => (body.block b).code.map fun i => (b, i)

def Body.order (body : Body) : List Nat :=
  body.places.map Prod.snd

def Body.position (body : Body) (b i : Nat) : Nat :=
  body.places.idxOf (b, i)

/-- Edges are recorded at both ends, and no instruction is in two places. -/
structure Body.LaidOut (body : Body) : Prop where
  successors_lt : ∀ b < body.basicBlocks.length, ∀ next ∈ (body.block b).successors, next < body.basicBlocks.length
  predecessors_lt : ∀ b < body.basicBlocks.length, ∀ other ∈ (body.block b).predecessors,
    other < body.basicBlocks.length
  edges : ∀ b < body.basicBlocks.length, ∀ next ∈ (body.block b).successors, b ∈ (body.block next).predecessors
  segments_lt : ∀ b < body.basicBlocks.length, ∀ segment ∈ (body.block b).segments, segment.2 < body.instrs.length
  nodup : body.order.Nodup

/-- An argument of a call is followed by the next one or by the call, and the parameters are the first instructions and
stay in one segment. -/
structure Body.Arranged (body : Body) : Prop where
  callArgs : ∀ b < body.basicBlocks.length, ∀ segment ∈ (body.block b).segments, ∀ i ∈ segmentIndices segment,
    body.opcode i = .callArg → i < segment.2 ∧ (body.opcode (i + 1)).continuesCall = true
  funcArgs : ∀ i < body.instrs.length, body.opcode i = .funcArg → ∀ j < i, body.opcode j = .funcArg
  funcArgsTogether : ∀ b < body.basicBlocks.length, ∀ segment ∈ (body.block b).segments, ∀ i ∈ segmentIndices segment,
    body.opcode i = .funcArg → segment.1 = 0

/-- An operand names an instruction with a value, and a masked store follows the instruction with its count. -/
structure Body.Named (body : Body) : Prop where
  operands : ∀ i < body.instrs.length, ∀ v ∈ (body.instr i).operands, v.isConstantGlobal = false →
    (body.opcode v.idx).isUnnamed = false
  maskStores : ∀ i < body.instrs.length, body.opcode i = .i32Vec8MaskStore →
    body.opcode (i - 1) = .i32Vec8MaskStoreInfo

/-- What the function builder and the simplification of the control flow keep. -/
structure Body.WellFormed (body : Body) : Prop extends body.LaidOut, body.Arranged, body.Named

instance (body : Body) : Decidable body.LaidOut :=
  decidable_of_iff
    ((∀ b < body.basicBlocks.length, ∀ next ∈ (body.block b).successors, next < body.basicBlocks.length) ∧
      (∀ b < body.basicBlocks.length, ∀ other ∈ (body.block b).predecessors, other < body.basicBlocks.length) ∧
      (∀ b < body.basicBlocks.length, ∀ next ∈ (body.block b).successors, b ∈ (body.block next).predecessors) ∧
      (∀ b < body.basicBlocks.length, ∀ segment ∈ (body.block b).segments, segment.2 < body.instrs.length) ∧
      body.order.Nodup)
    ⟨fun ⟨h1, h2, h3, h4, h5⟩ => ⟨h1, h2, h3, h4, h5⟩, fun ⟨h1, h2, h3, h4, h5⟩ => ⟨h1, h2, h3, h4, h5⟩⟩

instance (body : Body) : Decidable body.Arranged :=
  decidable_of_iff
    ((∀ b < body.basicBlocks.length, ∀ segment ∈ (body.block b).segments, ∀ i ∈ segmentIndices segment,
        body.opcode i = .callArg → i < segment.2 ∧ (body.opcode (i + 1)).continuesCall = true) ∧
      (∀ i < body.instrs.length, body.opcode i = .funcArg → ∀ j < i, body.opcode j = .funcArg) ∧
      ∀ b < body.basicBlocks.length, ∀ segment ∈ (body.block b).segments, ∀ i ∈ segmentIndices segment,
        body.opcode i = .funcArg → segment.1 = 0)
    ⟨fun ⟨h1, h2, h3⟩ => ⟨h1, h2, h3⟩, fun ⟨h1, h2, h3⟩ => ⟨h1, h2, h3⟩⟩

instance (body : Body) : Decidable body.Named :=
  decidable_of_iff
    ((∀ i < body.instrs.length, ∀ v ∈ (body.instr i).operands, v.isConstantGlobal = false →
        (body.opcode v.idx).isUnnamed = false) ∧
      ∀ i < body.instrs.length, body.opcode i = .i32Vec8MaskStore → body.opcode (i - 1) = .i32Vec8MaskStoreInfo)
    ⟨fun ⟨h1, h2⟩ => ⟨h1, h2⟩, fun ⟨h1, h2⟩ => ⟨h1, h2⟩⟩

instance (body : Body) : Decidable body.WellFormed :=
  decidable_of_iff (body.LaidOut ∧ body.Arranged ∧ body.Named)
    ⟨fun ⟨h1, h2, h3⟩ => ⟨h1, h2, h3⟩, fun ⟨h1, h2, h3⟩ => ⟨h1, h2, h3⟩⟩

structure Function extends Body where
  wellFormed : toBody.WellFormed

variable {i b : Nat} {body : Body}

theorem mem_segmentIndices {segment : Nat × Nat} : i ∈ segmentIndices segment ↔ segment.1 ≤ i ∧ i ≤ segment.2 := by
  rw [segmentIndices, mem_range'_1]
  omega

theorem Body.mem_places : (b, i) ∈ body.places ↔ b < body.basicBlocks.length ∧ i ∈ (body.block b).code := by
  simp only [Body.places, mem_flatMap, mem_range, mem_map, Prod.mk.injEq]
  constructor
  · rintro ⟨c, hLt, j, hMem, hBlock, hInstr⟩
    exact ⟨hBlock ▸ hLt, hBlock ▸ hInstr ▸ hMem⟩
  · rintro ⟨hLt, hMem⟩
    exact ⟨b, hLt, i, hMem, rfl, rfl⟩

theorem Body.LaidOut.places_nodup (h : body.LaidOut) : body.places.Nodup :=
  List.Nodup.of_map _ h.nodup

/-- The number of instructions in the blocks before `b`. -/
def Body.base (body : Body) (b : Nat) : Nat :=
  ((List.range b).map fun c => (body.block c).code.length).sum

theorem Body.places_split (body : Body) (hBlock : b < body.basicBlocks.length) :
    body.places = ((List.range b).flatMap fun c => (body.block c).code.map fun i => (c, i)) ++
      ((body.block b).code.map fun i => (b, i)) ++
      ((List.range' (b + 1) (body.basicBlocks.length - (b + 1))).flatMap fun c =>
        (body.block c).code.map fun i => (c, i)) := by
  have hRange : List.range body.basicBlocks.length =
      List.range b ++ [b] ++ List.range' (b + 1) (body.basicBlocks.length - (b + 1)) := by
    have hAppend := @List.range'_append_1 0 (b + 1) (body.basicBlocks.length - (b + 1))
    rw [Nat.zero_add, Nat.add_sub_cancel' hBlock] at hAppend
    rw [← range_succ, range_eq_range', range_eq_range', hAppend]
  rw [Body.places, hRange, flatMap_append, flatMap_append, flatMap_singleton]

variable {k : Nat}

/-- The `k`-th instruction of a block stands `k` places after the blocks before it. -/
theorem Body.places_getElem? (body : Body) (hBlock : b < body.basicBlocks.length)
    (hCode : (body.block b).code[k]? = some i) : body.places[body.base b + k]? = some (b, i) := by
  have hLength : ((List.range b).flatMap fun c => (body.block c).code.map fun i => (c, i)).length = body.base b := by
    simp [Body.base, length_flatMap]
  obtain ⟨hLt, -⟩ := List.getElem?_eq_some_iff.mp hCode
  rw [body.places_split hBlock, append_assoc, getElem?_append_right (by omega), hLength,
    Nat.add_sub_cancel_left, getElem?_append_left (by simpa using hLt), getElem?_map, hCode]
  rfl

theorem Body.LaidOut.position_eq (h : body.LaidOut) (hBlock : b < body.basicBlocks.length)
    (hCode : (body.block b).code[k]? = some i) : body.position b i = body.base b + k := by
  obtain ⟨hLt, hGet⟩ := List.getElem?_eq_some_iff.mp (body.places_getElem? hBlock hCode)
  rw [Body.position, ← hGet, h.places_nodup.idxOf_getElem]

end KushDB.Khir
