import KushDB.Khir.Function
import KushDB.Library.Dominance
import KushDB.Library.Fingers
import KushDB.Library.PostOrder

/-! # The dominator tree of the basic blocks

The blocks are numbered in post-order from the entry. Starting from the entry alone, the immediate dominator of each
block is computed in reverse post-order from those of its predecessors, as the place where two fingers meet, until a
pass changes nothing. An immediate dominator of minus one is an absent one; reading past it is an error, as is a loop
that does not end in the rounds given to it.
-/

namespace KushDB.Khir

open KushDB.Fingers

def successorsOf (bb : List BasicBlock) (b : Nat) : List Nat :=
  (bb.getD b default).successors

def predecessorsOf (bb : List BasicBlock) (b : Nat) : List Nat :=
  (bb.getD b default).predecessors

def orElseError {α : Type} (message : String) : Option α → Except String α
  | none => .error message
  | some a => .ok a

/-- The blocks in post-order. -/
def generatePO (bb : List BasicBlock) : Option (List Nat) :=
  DepthFirst.search (successorsOf bb) bb.length [0]

def poLabel (po : List Nat) (b : Nat) : Int :=
  if b ∈ po then po.idxOf b else -1

/-- One predecessor, with the meeting point of those before it. -/
def meetPredecessor (bb : List BasicBlock) (label : Nat → Int) (idom : Nat → Option Nat) (newIdom : Option Nat)
    (p : Nat) : Except String (Option Nat) :=
  match idom p, newIdom with
  | none, _ => .ok newIdom
  | some _, none => .ok (some p)
  | some _, some q =>
    (orElseError "idom out of range" (intersect idom label (2 * bb.length) p q)).map some

variable {bb : List BasicBlock} {idom : Nat → Option Nat} {label : Nat → Int} {p : Nat}

theorem meetPredecessor_of_none (h : idom p = none) (newIdom : Option Nat) :
    meetPredecessor bb label idom newIdom p = .ok newIdom := by
  simp [meetPredecessor, h]

variable {u : Nat}

theorem meetPredecessor_first (h : idom p = some u) : meetPredecessor bb label idom none p = .ok (some p) := by
  simp [meetPredecessor, h]

theorem meetPredecessor_next {q meeting : Nat} (h : idom p = some u)
    (hMeeting : intersect idom label (2 * bb.length) p q = some meeting) :
    meetPredecessor bb label idom (some q) p = .ok (some meeting) := by
  simp [meetPredecessor, h, hMeeting, orElseError, Except.map]

def updateIdom (bb : List BasicBlock) (label : Nat → Int) (state : (Nat → Option Nat) × Bool) (b : Nat) :
    Except String ((Nat → Option Nat) × Bool) :=
  if b = 0 then .ok state
  else do
    let newIdom ← (predecessorsOf bb b).foldlM (meetPredecessor bb label state.1) none
    match newIdom with
    | none => .error "New idom not found."
    | some found =>
      if state.1 b ≠ some found then .ok (Function.update state.1 b (some found), true) else .ok state

def passOver (bb : List BasicBlock) (label : Nat → Int) (rpo : List Nat) (idom : Nat → Option Nat) :
    Except String ((Nat → Option Nat) × Bool) :=
  rpo.foldlM (updateIdom bb label) (idom, false)

def whileChanged (bb : List BasicBlock) (label : Nat → Int) (rpo : List Nat) :
    Nat → (Nat → Option Nat) → Except String (Nat → Option Nat)
  | 0, _ => .error "rounds used up"
  | rounds + 1, idom => do
    let (idom, changed) ← passOver bb label rpo idom
    if changed then whileChanged bb label rpo rounds idom else .ok idom

def computeIdom (bb : List BasicBlock) : Except String (Nat → Option Nat) := do
  let po ← orElseError "search too deep" (generatePO bb)
  whileChanged bb (poLabel po) po.reverse (bb.length + 1) fun b => if b = 0 then some 0 else none

def computeDominatorTree (bb : List BasicBlock) : Except String (List (List Nat)) := do
  let idom ← computeIdom bb
  .ok ((List.range bb.length).map fun p => (List.range' 1 (bb.length - 1)).filter fun i => idom i = some p)

/-- A vertex is above another one in the tree or equal to it. -/
def TreeAncestor (tree : List (List Nat)) (i j : Nat) : Prop :=
  Relation.ReflTransGen (fun p c => c ∈ tree.getD p []) i j

def flow (bb : List BasicBlock) : Nat → Nat → Prop := DepthFirst.Edge (successorsOf bb)

/-- There is an entry, and every edge is recorded at both ends. -/
structure Consistent (bb : List BasicBlock) : Prop where
  entry : 0 < bb.length
  successors_lt : ∀ b < bb.length, ∀ next ∈ successorsOf bb b, next < bb.length
  predecessors_iff : ∀ b < bb.length, ∀ p, p ∈ predecessorsOf bb b ↔ p < bb.length ∧ b ∈ successorsOf bb p

instance (bb : List BasicBlock) : Decidable (Consistent bb) :=
  decidable_of_iff
    (0 < bb.length ∧ (∀ b < bb.length, ∀ next ∈ successorsOf bb b, next < bb.length) ∧
      ∀ b < bb.length, (∀ p ∈ predecessorsOf bb b, p < bb.length ∧ b ∈ successorsOf bb p) ∧
        ∀ p < bb.length, b ∈ successorsOf bb p → p ∈ predecessorsOf bb b)
    ⟨fun ⟨h1, h2, h3⟩ => ⟨h1, h2, fun b hb p => ⟨(h3 b hb).1 p, fun hp => (h3 b hb).2 p hp.1 hp.2⟩⟩,
      fun h => ⟨h.entry, h.successors_lt, fun b hb =>
        ⟨fun p => (h.predecessors_iff b hb p).mp, fun p hp hEdge => (h.predecessors_iff b hb p).mpr ⟨hp, hEdge⟩⟩⟩⟩

end KushDB.Khir
