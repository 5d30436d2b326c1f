import Mathlib.Logic.Function.Basic
import Mathlib.Logic.Nontrivial.Defs
import Mathlib.Data.List.Basic

/-! # Sequences of moves

A move reads one location or a constant and combines it with what its destination holds; on the way it may spoil one
more location. Moves run one after the other. A destination ends up with the value its source had at the start as soon
as no earlier move writes the source and no later move writes the destination.
-/

namespace KushDB.Moves

open List

variable {L W : Type} [DecidableEq L]

inductive Source (L W : Type)
  | constant (value : W)
  | location (place : L)
  deriving DecidableEq

def Source.read (state : L → W) : Source L W → W
  | .constant value => value
  | .location place => state place

structure Move (L W : Type) where
  dest : L
  source : Source L W
  /-- What the destination holds afterwards, from what it held and what was read. -/
  merge : W → W → W
  spoils : Option (L × (W → W))

def Move.writes (move : Move L W) : List L :=
  move.dest :: (move.spoils.map Prod.fst).toList

def Move.exec (move : Move L W) (state : L → W) : L → W :=
  let value := move.source.read state
  let spoiled := match move.spoils with
    | none => state
    | some (place, leave) => Function.update state place (leave value)
  Function.update spoiled move.dest (move.merge (state move.dest) value)

def run (moves : List (Move L W)) (state : L → W) : L → W :=
  moves.foldl (fun state move => move.exec state) state

theorem run_append (first second : List (Move L W)) (state : L → W) :
    run (first ++ second) state = run second (run first state) :=
  foldl_append

variable {place : L}

theorem exec_of_not_mem {move : Move L W} (h : place ∉ move.writes) (state : L → W) :
    move.exec state place = state place := by
  rw [Move.writes, mem_cons, not_or] at h
  obtain ⟨hDest, hSpoiled⟩ := h
  rw [Move.exec, Function.update_of_ne hDest]
  cases hSpoils : move.spoils with
  | none => rfl
  | some spoiled =>
    rw [hSpoils] at hSpoiled
    exact Function.update_of_ne (by simpa using hSpoiled) _ _

theorem exec_dest (move : Move L W) (state : L → W) :
    move.exec state move.dest = move.merge (state move.dest) (move.source.read state) :=
  Function.update_self _ _ _

theorem run_of_not_mem {moves : List (Move L W)} (h : ∀ move ∈ moves, place ∉ move.writes) (state : L → W) :
    run moves state place = state place := by
  induction moves generalizing state with
  | nil => rfl
  | cons move rest ih =>
    change run rest (move.exec state) place = _
    rw [ih (fun other hMem => h other (mem_cons_of_mem _ hMem)), exec_of_not_mem (h move mem_cons_self)]

/-! ## Transfers

A transfer asks for one value to be brought to one place. Its moves write the place and possibly scratch places.
-/

structure Transfer (L W : Type) where
  dest : L
  source : Source L W
  /-- What has to hold between what arrives and what was read. -/
  agree : W → W → Prop
  moves : List (Move L W)

structure Transfer.CarriedOut (scratch : List L) (transfer : Transfer L W) : Prop where
  writes : ∀ move ∈ transfer.moves, ∀ place ∈ move.writes, place = transfer.dest ∨ place ∈ scratch
  arrives : ∀ state, transfer.agree (run transfer.moves state transfer.dest) (transfer.source.read state)

section Transfers

variable {scratch : List L} {transfers : List (Transfer L W)}
variable {place : L}

section

variable (h : ∀ transfer ∈ transfers, transfer.CarriedOut scratch)
include h

/-- A place keeps its contents, up to a relation, if nothing is brought there but its own contents. -/
theorem run_transfers_keeps {related : W → W → Prop} (hRefl : ∀ a, related a a)
    (hTrans : ∀ a b c, related a b → related b c → related a c) (hScratch : place ∉ scratch)
    (hKeeps : ∀ transfer ∈ transfers, transfer.dest = place →
      transfer.source = .location place ∧ ∀ a b, transfer.agree a b → related a b) (state : L → W) :
    related (run (transfers.flatMap Transfer.moves) state place) (state place) := by
  induction transfers generalizing state with
  | nil => exact hRefl _
  | cons transfer rest ih =>
    obtain ⟨hFirst, hRest⟩ := forall_mem_cons.mp h
    obtain ⟨hKeep, hKeepRest⟩ := forall_mem_cons.mp hKeeps
    rw [flatMap_cons, run_append]
    apply hTrans _ _ _ (ih hRest hKeepRest _)
    by_cases hDest : transfer.dest = place
    case pos =>
      obtain ⟨hSource, hAgree⟩ := hKeep hDest
      have hArrives := hAgree _ _ (hFirst.arrives state)
      rwa [hSource, hDest] at hArrives
    case neg =>
      rw [run_of_not_mem]
      · exact hRefl _
      · intro move hMove hWritten
        rcases hFirst.writes move hMove place hWritten with hEq | hMem
        · exact hDest hEq.symm
        · exact hScratch hMem

/-- A place that is no destination keeps its contents. -/
theorem run_transfers_of_ne (hScratch : place ∉ scratch) (hDest : ∀ transfer ∈ transfers, transfer.dest ≠ place)
    (state : L → W) : run (transfers.flatMap Transfer.moves) state place = state place :=
  run_transfers_keeps h (fun _ => rfl) (fun _ _ _ => Eq.trans) hScratch
    (fun transfer hMem hEq => absurd hEq (hDest transfer hMem)) state

theorem read_transfers {source : Source L W}
    (hSource : ∀ place, source = .location place → place ∉ scratch ∧ ∀ transfer ∈ transfers, transfer.dest ≠ place)
    (state : L → W) : source.read (run (transfers.flatMap Transfer.moves) state) = source.read state := by
  cases source with
  | constant value => rfl
  | location place =>
    obtain ⟨hScratch, hDest⟩ := hSource place rfl
    exact run_transfers_of_ne h hScratch hDest state

end

/-- What arrives is what the source held when its turn came. -/
theorem run_transfers_dest {before after : List (Transfer L W)} {transfer : Transfer L W}
    (h : ∀ other ∈ before ++ transfer :: after, other.CarriedOut scratch) (hScratch : transfer.dest ∉ scratch)
    (hLater : ∀ later ∈ after, later.dest ≠ transfer.dest) (state : L → W) :
    transfer.agree (run ((before ++ transfer :: after).flatMap Transfer.moves) state transfer.dest)
      (transfer.source.read (run (before.flatMap Transfer.moves) state)) := by
  have hAfter : ∀ other ∈ after, other.CarriedOut scratch := fun other hMem =>
    h other (mem_append_right _ (mem_cons_of_mem _ hMem))
  rw [flatMap_append, flatMap_cons, run_append, run_append, run_transfers_of_ne hAfter hScratch hLater]
  exact (h transfer (mem_append_right _ mem_cons_self)).arrives _

end Transfers

/-- A source that always reads what a place holds is that place. -/
theorem Source.eq_location [Nontrivial W] {source : Source L W} (h : ∀ state : L → W, source.read state = state place) :
    source = .location place := by
  obtain ⟨a, b, hNe⟩ := exists_pair_ne W
  cases source with
  | constant value =>
    have hA : value = a := h fun _ => a
    have hB : value = b := h fun _ => b
    exact absurd (hA.symm.trans hB) hNe
  | location other =>
    by_cases hSame : other = place
    · rw [hSame]
    · have hRead : Function.update (fun _ => a) place b other = Function.update (fun _ => a) place b place :=
        h (Function.update (fun _ => a) place b)
      rw [Function.update_of_ne hSame, Function.update_self] at hRead
      exact absurd hRead hNe

end KushDB.Moves
