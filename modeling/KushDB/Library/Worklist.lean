import Mathlib.Algebra.Order.BigOperators.Group.Finset
import KushDB.Library.While

/-! # Growing sets with a worklist

Every node has a set, and the sets of the other nodes may demand new members of it. A stack holds the nodes that are
still to be looked at; a node whose set grew puts back the nodes that depend on it. Whatever the order on the stack,
the loop ends, and it ends in the least family of sets above the first one that meets every demand.
-/

namespace KushDB.Worklist

open While List

variable {V : Type} [DecidableEq V]

def grow (demand : (Nat → Finset V) → Nat → Finset V) (dependents : Nat → List Nat)
    (state : (Nat → Finset V) × List Nat) : Option ((Nat → Finset V) × List Nat) :=
  match state.2 with
  | [] => none
  | node :: rest =>
    let grown := state.1 node ∪ demand state.1 node
    some (Function.update state.1 node grown,
      if grown.card ≠ (state.1 node).card then (dependents node).reverse ++ rest else rest)

def run (demand : (Nat → Finset V) → Nat → Finset V) (dependents : Nat → List Nat) (rounds : Nat)
    (start : Nat → Finset V) (pending : List Nat) : Option (Nat → Finset V) :=
  (whileLoop (fun state => !state.2.isEmpty) (grow demand dependents) rounds (start, pending)).map Prod.fst

theorem run_mono {demand : (Nat → Finset V) → Nat → Finset V} {dependents : Nat → List Nat} {rounds more : Nat}
    {start sets : Nat → Finset V} {pending : List Nat} (h : run demand dependents rounds start pending = some sets)
    (hLe : rounds ≤ more) : run demand dependents more start pending = some sets := by
  obtain ⟨final, hFinal, rfl⟩ := Option.map_eq_some_iff.mp h
  rw [run, whileLoop_mono hFinal hLe, Option.map_some]

/-- A family above the first one in which no demand is open. -/
structure Solution (demand : (Nat → Finset V) → Nat → Finset V) (size : Nat) (start sets : Nat → Finset V) : Prop where
  above : ∀ node, start node ⊆ sets node
  closed : ∀ node < size, demand sets node ⊆ sets node

structure LeastSolution (demand : (Nat → Finset V) → Nat → Finset V) (size : Nat) (start sets : Nat → Finset V) : Prop
    extends Solution demand size start sets where
  least : ∀ other, Solution demand size start other → ∀ node < size, sets node ⊆ other node

/-- What the loop relies on: demands grow with the sets, stay within a finite set, and can only be changed by a node
that lists the demanding one among its dependents. -/
structure Demands (demand : (Nat → Finset V) → Nat → Finset V) (dependents : Nat → List Nat) (size : Nat)
    (total : Finset V) : Prop where
  mono : ∀ (sets larger : Nat → Finset V), (∀ node < size, sets node ⊆ larger node) →
    ∀ node < size, demand sets node ⊆ demand larger node
  bounded : ∀ sets node, (∀ other < size, sets other ⊆ total) → node < size → demand sets node ⊆ total
  dependent : ∀ (sets : Nat → Finset V) changed grown node, node < size → node ∉ dependents changed →
    demand (Function.update sets changed grown) node = demand sets node
  inside : ∀ node < size, ∀ other ∈ dependents node, other < size

section Loop

variable {demand : (Nat → Finset V) → Nat → Finset V} {dependents : Nat → List Nat} {size : Nat} {total : Finset V}
  {start : Nat → Finset V}

structure Invariant (demand : (Nat → Finset V) → Nat → Finset V) (size : Nat) (total : Finset V)
    (start sets : Nat → Finset V) (pending : List Nat) : Prop where
  above : ∀ node, start node ⊆ sets node
  within : ∀ node < size, sets node ⊆ total
  open_pending : ∀ node < size, demand sets node ⊆ sets node ∨ node ∈ pending
  pending_lt : ∀ node ∈ pending, node < size
  least : ∀ other, Solution demand size start other → ∀ node < size, sets node ⊆ other node

variable {node : Nat} {pending : List Nat} {sets : Nat → Finset V}

theorem Invariant.grow {rest : List Nat} (hDemands : Demands demand dependents size total)
    (hState : Invariant demand size total start sets (node :: rest)) (hRest : ∀ other ∈ rest, other ∈ pending)
    (hPending : ∀ other ∈ pending, other < size)
    (hGrown : sets node ∪ demand sets node ≠ sets node → ∀ other ∈ dependents node, other ∈ pending) :
    Invariant demand size total start (Function.update sets node (sets node ∪ demand sets node)) pending := by
  have hNode : node < size := hState.pending_lt node mem_cons_self
  constructor
  · intro other
    rcases eq_or_ne other node with rfl | hNe
    · rw [Function.update_self]
      exact (hState.above other).trans Finset.subset_union_left
    · rw [Function.update_of_ne hNe]
      exact hState.above other
  · intro other hOther
    rcases eq_or_ne other node with rfl | hNe
    · rw [Function.update_self]
      exact Finset.union_subset (hState.within other hOther) (hDemands.bounded sets other hState.within hOther)
    · rw [Function.update_of_ne hNe]
      exact hState.within other hOther
  · intro other hOther
    by_cases hSame : sets node ∪ demand sets node = sets node
    · -- nothing was added, so the family is the old one and only the node itself may have been open
      rw [hSame, Function.update_eq_self]
      rcases eq_or_ne other node with rfl | hNe
      · exact Or.inl (Finset.union_eq_left.mp hSame)
      · rcases hState.open_pending other hOther with hClosed | hOpen
        · exact Or.inl hClosed
        · exact Or.inr (hRest other ((mem_cons.mp hOpen).resolve_left hNe))
    · by_cases hDepends : other ∈ dependents node
      · exact Or.inr (hGrown hSame other hDepends)
      · rw [hDemands.dependent sets node _ other hOther hDepends]
        rcases eq_or_ne other node with rfl | hNe
        · rw [Function.update_self]
          exact Or.inl Finset.subset_union_right
        · rw [Function.update_of_ne hNe]
          exact (hState.open_pending other hOther).imp_right
            fun hOpen => hRest other ((mem_cons.mp hOpen).resolve_left hNe)
  · exact hPending
  · intro larger hSolution other hOther
    rcases eq_or_ne other node with rfl | hNe
    · rw [Function.update_self]
      refine Finset.union_subset (hState.least larger hSolution other hOther) ?_
      exact (hDemands.mono sets larger (hState.least larger hSolution) other hOther).trans
        (hSolution.closed other hOther)
    · rw [Function.update_of_ne hNe]
      exact hState.least larger hSolution other hOther

/-- Members that are still missing weigh more than the dependents one growth can put back. -/
def weight (size : Nat) (total : Finset V) (dependents : Nat → List Nat)
    (state : (Nat → Finset V) × List Nat) : Nat :=
  (∑ node ∈ Finset.range size, (total \ state.1 node).card) *
    (∑ node ∈ Finset.range size, (dependents node).length + 1) + state.2.length

theorem missing_update_lt {grown : Finset V} (hNode : node < size) (hSub : sets node ⊂ grown) (hTotal : grown ⊆ total) :
    ∑ other ∈ Finset.range size, (total \ Function.update sets node grown other).card <
      ∑ other ∈ Finset.range size, (total \ sets other).card := by
  apply Finset.sum_lt_sum
  · intro other _
    rcases eq_or_ne other node with rfl | hNe
    · rw [Function.update_self]
      exact Finset.card_le_card (Finset.sdiff_subset_sdiff (subset_refl _) hSub.subset)
    · rw [Function.update_of_ne hNe]
  · refine ⟨node, Finset.mem_range.mpr hNode, ?_⟩
    obtain ⟨v, hGrown, hMissing⟩ := Finset.exists_of_ssubset hSub
    rw [Function.update_self]
    apply Finset.card_lt_card
    refine Finset.ssubset_iff_of_subset (Finset.sdiff_subset_sdiff (subset_refl _) hSub.subset) |>.mpr ?_
    exact ⟨v, Finset.mem_sdiff.mpr ⟨hTotal hGrown, hMissing⟩, fun h => (Finset.mem_sdiff.mp h).2 hGrown⟩

theorem grow_step (hDemands : Demands demand dependents size total) (state : (Nat → Finset V) × List Nat)
    (hState : Invariant demand size total start state.1 state.2) (hTest : (!state.2.isEmpty) = true) :
    ∃ next, grow demand dependents state = some next ∧ Invariant demand size total start next.1 next.2 ∧
      weight size total dependents next < weight size total dependents state := by
  obtain ⟨sets, pending⟩ := state
  cases pending with
  | nil => simp at hTest
  | cons node rest =>
    have hNode : node < size := hState.pending_lt node mem_cons_self
    have hRest : ∀ other ∈ rest, other < size := fun other h => hState.pending_lt other (mem_cons_of_mem _ h)
    have hTotal : sets node ∪ demand sets node ⊆ total :=
      Finset.union_subset (hState.within node hNode) (hDemands.bounded sets node hState.within hNode)
    by_cases hSame : sets node ∪ demand sets node = sets node
    · refine ⟨_, rfl, ?_, ?_⟩
      · rw [if_neg (by rw [hSame]; simp)]
        exact hState.grow hDemands (fun _ h => h) hRest (fun hNe => absurd hSame hNe)
      · rw [hSame]
        simp [weight]
    · have hSub : sets node ⊂ sets node ∪ demand sets node :=
        Finset.ssubset_iff_subset_ne.mpr ⟨Finset.subset_union_left, fun h => hSame h.symm⟩
      have hCard : (sets node ∪ demand sets node).card ≠ (sets node).card := (Finset.card_lt_card hSub).ne'
      refine ⟨_, rfl, ?_, ?_⟩
      · rw [if_pos hCard]
        refine hState.grow hDemands (fun _ h => mem_append_right _ h) ?_ ?_
        · intro other hOther
          rcases mem_append.mp hOther with hDependent | hOld
          · exact hDemands.inside node hNode other (mem_reverse.mp hDependent)
          · exact hRest other hOld
        · exact fun _ other hOther => mem_append_left _ (mem_reverse.mpr hOther)
      · rw [if_pos hCard]
        have hLess := missing_update_lt hNode hSub hTotal
        have hLength : (dependents node).length ≤ ∑ other ∈ Finset.range size, (dependents other).length :=
          Finset.single_le_sum (f := fun other => (dependents other).length) (fun _ _ => Nat.zero_le _)
            (Finset.mem_range.mpr hNode)
        simp only [weight, length_append, length_reverse, length_cons]
        have hMul := Nat.mul_le_mul_right
          (∑ other ∈ Finset.range size, (dependents other).length + 1) (Nat.succ_le_of_lt hLess)
        rw [Nat.succ_mul] at hMul
        omega

theorem run_spec (hDemands : Demands demand dependents size total) (hStart : ∀ node < size, start node ⊆ total)
    (hAll : ∀ node < size, node ∈ pending) (hPending : ∀ node ∈ pending, node < size) :
    ∃ enough, ∀ rounds, enough < rounds → ∃ sets, run demand dependents rounds start pending = some sets ∧
      LeastSolution demand size start sets := by
  refine ⟨weight size total dependents (start, pending), fun rounds hRounds => ?_⟩
  have hInvariant : Invariant demand size total start start pending :=
    ⟨fun _ => subset_refl _, hStart, fun node hNode => Or.inr (hAll node hNode), hPending,
      fun sets hSolution node _ => hSolution.above node⟩
  have hEnd : ∀ final : (Nat → Finset V) × List Nat, Invariant demand size total start final.1 final.2 →
      (!final.2.isEmpty) = false → LeastSolution demand size start final.1 := by
    intro final hFinal hEmpty
    have hNil : final.2 = [] := by simpa using hEmpty
    refine ⟨⟨hFinal.above, fun node hNode => ?_⟩, hFinal.least⟩
    exact (hFinal.open_pending node hNode).resolve_right (by rw [hNil]; exact not_mem_nil)
  obtain ⟨final, hFinal, hPost⟩ := whileLoop_rule (fun state => Invariant demand size total start state.1 state.2)
    (weight size total dependents) (grow_step hDemands) hEnd hInvariant hRounds
  exact ⟨final.1, by rw [run, hFinal, Option.map_some], hPost⟩

end Loop

end KushDB.Worklist
