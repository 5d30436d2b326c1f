import KushDB.Khir.DominatorTree

/-! # The passes over the blocks

A pass visits the blocks in reverse post-order, so that a predecessor with a greater label is known when a block is
visited. After as many passes as there are blocks the tree is the right one, and the next pass changes nothing; a pass
that changes nothing has found the right tree earlier.
-/

namespace KushDB.Khir

open KushDB.Fingers KushDB.Dominance KushDB.DepthFirst Relation List

variable {bb : List BasicBlock} {po : List Nat} {idom : Nat → Option Nat}

/-- What holds after some blocks of a pass. -/
structure Passed (bb : List BasicBlock) (po : List Nat) (start : Nat → Option Nat) (round : Nat) (done : List Nat)
    (state : (Nat → Option Nat) × Bool) : Prop where
  sound : Sound bb po state.1
  known : ∀ v ∈ done, (state.1 v).isSome
  keeps : ∀ v, (start v).isSome → (state.1 v).isSome
  upper : Upper bb po (fun v => if v ∈ done then round + 1 else round) state.1
  unchanged : state.2 = false → state.1 = start ∧ ∀ b ∈ done, b ≠ 0 → ∃ y, start b = some y ∧ Meets bb start b y
  exact : Exact bb po start → state = (start, false)

variable {done : List Nat}

theorem mem_done_of_lt {rest : List Nat} {b p : Nat} (hNodup : po.Nodup) (hSplit : po.reverse = done ++ b :: rest)
    (hMem : p ∈ po) (hLabel : poLabel po b < poLabel po p) : p ∈ done := by
  have hBlock : b ∈ po := List.mem_reverse.mp (hSplit ▸ mem_append_right _ mem_cons_self)
  have hOrder : po = rest.reverse ++ b :: done.reverse := by
    rw [← reverse_reverse po, hSplit]
    simp
  rw [poLabel_of_mem hBlock, poLabel_of_mem hMem] at hLabel
  rcases List.mem_append.mp (hOrder ▸ hMem) with hLater | hEarlier
  · obtain ⟨front, between, hFront⟩ := append_of_mem hLater
    rw [hFront, append_assoc, cons_append] at hOrder
    have hLess := idxOf_lt_of_mem_rest (hOrder ▸ hNodup) (mem_append_right between mem_cons_self)
    rw [← hOrder] at hLess
    omega
  · rcases List.mem_cons.mp hEarlier with rfl | hDone
    · omega
    · exact List.mem_reverse.mp hDone

theorem IsPostOrder.length_le (hConsistent : Consistent bb) (hOrder : IsPostOrder (successorsOf bb) 0 po) :
    po.length ≤ bb.length := by
  have hSubset : po ⊆ List.range bb.length :=
    fun v hv => List.mem_range.mpr (hConsistent.reachable_lt ((hOrder.mem_iff v).mp hv))
  have hLength := (subperm_of_subset hOrder.nodup hSubset).length_le
  rwa [length_range] at hLength

theorem count_append (done : List Nat) (b round : Nat) :
    (fun v => if v ∈ done ++ [b] then round + 1 else round) =
      fun v => if v = b then round + 1 else if v ∈ done then round + 1 else round := by
  funext v
  by_cases hHere : v = b
  · simp [hHere]
  · simp [hHere]

/-- The entry is skipped. -/
theorem Passed.entry {start : Nat → Option Nat} {round : Nat} {state : (Nat → Option Nat) × Bool}
    (h : Passed bb po start round done state) : Passed bb po start round (done ++ [0]) state := by
  refine ⟨h.sound, ?_, h.keeps, ?_, fun hFlag => ⟨(h.unchanged hFlag).1, ?_⟩, h.exact⟩
  · intro v hv
    rcases List.mem_append.mp hv with hDone | hEntry
    · exact h.known v hDone
    · rw [List.mem_singleton.mp hEntry, h.sound.root]
      rfl
  · rw [count_append]
    intro v i hv hi
    by_cases hHere : v = 0
    · subst hHere
      rw [hi.of_root]
      exact .refl _ _
    · have hOn := h.upper v i hv hi
      simpa only [if_neg hHere] using hOn
  · intro b hb hNe
    rcases List.mem_append.mp hb with hDone | hEntry
    · exact (h.unchanged hFlag).2 b hDone hNe
    · exact absurd (List.mem_singleton.mp hEntry) hNe

section

variable (hConsistent : Consistent bb) (hOrder : IsPostOrder (successorsOf bb) 0 po)
include hConsistent hOrder

theorem Passed.step {start : Nat → Option Nat} {round b : Nat} {done rest : List Nat}
    {state : (Nat → Option Nat) × Bool} (hSplit : po.reverse = done ++ b :: rest)
    (hAll : 0 < round → ∀ p ∈ po, (start p).isSome) (h : Passed bb po start round done state) :
    ∃ next, updateIdom bb (poLabel po) state b = .ok next ∧ Passed bb po start round (done ++ [b]) next := by
  by_cases hNe : b = 0
  · subst hNe
    exact ⟨state, by rw [updateIdom, if_pos rfl], h.entry⟩
  have hMem : b ∈ po := List.mem_reverse.mp (hSplit ▸ mem_append_right _ mem_cons_self)
  have hBlock := hConsistent.reachable_lt ((hOrder.mem_iff b).mp hMem)
  obtain ⟨p, hPredMem, hEdge, hLess⟩ := hOrder.exists_parent hMem hNe
  have hLabel : poLabel po b < poLabel po p := by
    rw [poLabel_of_mem hMem, poLabel_of_mem hPredMem]
    exact Int.ofNat_lt.mpr hLess
  have hPred := hConsistent.pred_of_flow ((hOrder.mem_iff p).mp hPredMem) hEdge
  have hKnown := h.known p (mem_done_of_lt hOrder.nodup hSplit hPredMem hLabel)
  obtain ⟨current, changed⟩ := state
  obtain ⟨y, hMeets, hUpdate⟩ := h.sound.updateIdom_eq hOrder (IsPostOrder.length_le hConsistent hOrder) hNe hPred
    hKnown changed
  obtain ⟨hHigher, hSound⟩ := h.sound.meet hOrder hMem hNe hMeets
    (fun q hq => hConsistent.flow_of_pred hBlock hq) hPred hKnown hLabel
  refine ⟨_, hUpdate, hSound, ?_, ?_, ?_, ?_, ?_⟩
  · intro v hv
    rcases List.mem_append.mp hv with hDone | hHere
    · exact isSome_update (h.known v hDone)
    · rw [List.mem_singleton.mp hHere]
      simp
  · exact fun v hv => isSome_update (h.keeps v hv)
  · rw [count_append]
    apply Upper.meet hConsistent hOrder h.sound h.upper _ hNe hMeets hHigher
    · intro q hq hGreater
      have hDone := mem_done_of_lt hOrder.nodup hSplit hq hGreater
      exact ⟨h.known q hDone, if_pos hDone⟩
    · exact fun hPositive q hq => h.keeps q (hAll hPositive q hq)
    · intro v
      split <;> omega
  · intro hFlag
    obtain ⟨hBefore, hNow⟩ := Bool.or_eq_false_iff.mp hFlag
    obtain ⟨rfl, hDone⟩ := h.unchanged hBefore
    have hSame : current b = some y := by simpa using hNow
    refine ⟨?_, fun v hv hApart => ?_⟩
    · rw [← hSame, Function.update_eq_self]
    · rcases List.mem_append.mp hv with hEarlier | hHere
      · exact hDone v hEarlier hApart
      · rw [List.mem_singleton.mp hHere]
        exact ⟨y, hSame, hMeets⟩
  · intro hExact
    obtain ⟨rfl, rfl⟩ := Prod.mk.inj (h.exact hExact)
    have hSame := hExact.meets hConsistent hOrder h.sound hMem hNe hMeets hHigher
    rw [← hSame, Function.update_eq_self]
    simp

variable {start : Nat → Option Nat}

/-- A pass over all blocks. -/
theorem passOver_spec {round : Nat} (hSound : Sound bb po start) (hUpper : Upper bb po (fun _ => round) start)
    (hAll : 0 < round → ∀ p ∈ po, (start p).isSome) :
    ∃ state, passOver bb (poLabel po) po.reverse start = .ok state ∧ Passed bb po start round po.reverse state := by
  have hFold : ∀ (rest done : List Nat) (state : (Nat → Option Nat) × Bool), po.reverse = done ++ rest →
      Passed bb po start round done state →
      ∃ next, rest.foldlM (updateIdom bb (poLabel po)) state = .ok next ∧
        Passed bb po start round po.reverse next := by
    intro rest
    induction rest with
    | nil =>
      intro done state hSplit h
      rw [hSplit, append_nil]
      exact ⟨state, rfl, h⟩
    | cons b rest ih =>
      intro done state hSplit h
      obtain ⟨middle, hMiddle, hPassed⟩ := h.step hConsistent hOrder hSplit hAll
      obtain ⟨next, hNext, hEnd⟩ := ih (done ++ [b]) middle (by rw [hSplit, append_assoc]; rfl) hPassed
      refine ⟨next, ?_, hEnd⟩
      rw [foldlM_cons, hMiddle]
      exact hNext
  apply hFold po.reverse [] (start, false) rfl
  refine ⟨hSound, fun _ hv => absurd hv not_mem_nil, fun _ hv => hv, ?_, fun _ => ⟨rfl, ?_⟩, fun _ => rfl⟩
  · simpa using hUpper
  · exact fun _ hb => absurd hb not_mem_nil

omit hOrder in
/-- After as many passes as there are blocks nothing stands above a block but its dominators. -/
theorem Exact.of_upper (hSound : Sound bb po idom) (hUpper : Upper bb po (fun _ => bb.length) idom)
    (hAll : ∀ p ∈ po, (idom p).isSome) : Exact bb po idom := by
  intro v hv
  refine ⟨hAll v hv, fun i => ⟨fun hi => ?_, hSound.lower v i (hAll v hv)⟩⟩
  have hVertices : ∀ w, Reachable (flow bb) 0 w → w ∈ List.range bb.length :=
    fun w hw => List.mem_range.mpr (hConsistent.reachable_lt hw)
  apply OnBounded.dominates hVertices
  rw [length_range]
  exact hUpper v i (hAll v hv) hi

/-- A tree in which every block stands under the meeting point of its predecessors is the right one. -/
theorem Exact.of_meets (hSound : Sound bb po idom) (hAll : ∀ p ∈ po, (idom p).isSome)
    (hMeets : ∀ b ∈ po, b ≠ 0 → ∃ y, idom b = some y ∧ Meets bb idom b y) : Exact bb po idom := by
  have hOn : ∀ (v : Nat) (passed : List Nat), Walk (flow bb) 0 v passed → ∀ i, Ancestor idom 0 v i → i ∈ passed := by
    intro v passed hWalk
    induction hWalk with
    | start => exact fun i hi => List.mem_singleton.mpr hi.of_root
    | @step p b passed hBefore hEdge ih =>
      intro i hi
      have hReachable := hBefore.reachable
      by_cases hHere : i = b
      · exact hHere ▸ mem_cons_self
      apply mem_cons_of_mem
      by_cases hNe : b = 0
      · exact absurd ((hNe ▸ hi).of_root.trans hNe.symm) hHere
      obtain ⟨y, hy, -, hCommon⟩ := hMeets b ((hOrder.mem_iff b).mpr (hReachable.tail hEdge)) hNe
      have hPred := hConsistent.pred_of_flow hReachable hEdge
      exact ih i ((hCommon i).mp (hi.of_up ⟨hNe, hy⟩ hHere) p hPred (hAll p ((hOrder.mem_iff p).mpr hReachable)))
  intro v hv
  exact ⟨hAll v hv, fun i => ⟨fun hi passed hWalk => hOn v passed hWalk i hi, hSound.lower v i (hAll v hv)⟩⟩

theorem whileChanged_spec (rounds round : Nat) (hRounds : round + rounds = bb.length + 1) (hRound : round ≤ bb.length)
    (hSound : Sound bb po start) (hUpper : Upper bb po (fun _ => round) start)
    (hAll : 0 < round → ∀ p ∈ po, (start p).isSome) :
    ∃ final, whileChanged bb (poLabel po) po.reverse rounds start = .ok final ∧ Sound bb po final ∧
      Exact bb po final := by
  induction rounds generalizing round start with
  | zero => omega
  | succ rounds ih =>
    obtain ⟨⟨next, changed⟩, hPass, hPassed⟩ := passOver_spec hConsistent hOrder hSound hUpper hAll
    have hKnown : ∀ p ∈ po, (next p).isSome := fun p hp => hPassed.known p (List.mem_reverse.mpr hp)
    cases changed with
    | false =>
      obtain ⟨hSame, hMeets⟩ := hPassed.unchanged rfl
      dsimp only at hSame
      subst hSame
      refine ⟨next, ?_, hSound, ?_⟩
      · rw [whileChanged, hPass]
        rfl
      · exact Exact.of_meets hConsistent hOrder hSound hKnown
          fun b hb hNe => hMeets b (List.mem_reverse.mpr hb) hNe
    | true =>
      have hNotExact : ¬ Exact bb po start := by
        intro hExact
        exact absurd (Prod.mk.inj (hPassed.exact hExact)).2 (by decide)
      have hEarly : round < bb.length := by
        refine Nat.lt_of_le_of_ne hRound fun hLast => hNotExact ?_
        have hPositive : 0 < round := hLast ▸ hConsistent.entry
        exact Exact.of_upper hConsistent hSound (hLast ▸ hUpper) (hAll hPositive)
      have hNextUpper : Upper bb po (fun _ => round + 1) next := by
        intro v i hv hi
        have hOn := hPassed.upper v i hv hi
        simpa only [if_pos (List.mem_reverse.mpr (hPassed.sound.reached v hv))] using hOn
      obtain ⟨final, hFinal, hEnd⟩ := ih (round + 1) (by omega) (by omega) hPassed.sound hNextUpper fun _ => hKnown
      refine ⟨final, ?_, hEnd⟩
      rw [whileChanged, hPass]
      exact hFinal

end

theorem entry_sound (hOrder : IsPostOrder (successorsOf bb) 0 po) :
    Sound bb po fun b => if b = 0 then some 0 else none := by
  have hOnly : ∀ {v : Nat}, (if v = 0 then some 0 else none : Option Nat).isSome → v = 0 := by
    intro v hv
    by_contra hNe
    rw [if_neg hNe] at hv
    exact absurd hv Bool.false_ne_true
  constructor
  · rfl
  · exact fun v hv => hOnly hv ▸ hOrder.root_mem
  · exact fun v u hNe hu => absurd (hOnly (hu ▸ rfl)) hNe
  · exact fun v u hNe hu => absurd (hOnly (hu ▸ rfl)) hNe
  · intro v i hv hi
    obtain rfl := hOnly hv
    rw [List.mem_singleton.mp (hi [0] .start)]

theorem computeIdom_spec (hConsistent : Consistent bb) :
    ∃ po idom, IsPostOrder (successorsOf bb) 0 po ∧ computeIdom bb = .ok idom ∧ Sound bb po idom ∧
      Exact bb po idom := by
  have hClosed : ∀ b ∈ List.range bb.length, successorsOf bb b ⊆ List.range bb.length :=
    fun b hb next hNext => List.mem_range.mpr (hConsistent.successors_lt b (List.mem_range.mp hb) next hNext)
  obtain ⟨po, hSearch, hOrder⟩ := search_isPostOrder hClosed (List.mem_range.mpr hConsistent.entry)
    (Nat.le_of_eq length_range)
  have hUpper : Upper bb po (fun _ => 0) fun b => if b = 0 then some 0 else none :=
    fun _ _ _ _ k hk => absurd hk (Nat.not_lt_zero k)
  obtain ⟨final, hFinal, hSound, hExact⟩ := whileChanged_spec hConsistent hOrder (bb.length + 1) 0 (by omega)
    (Nat.zero_le _) (entry_sound hOrder) hUpper fun hPositive => absurd hPositive (Nat.lt_irrefl 0)
  refine ⟨po, final, hOrder, ?_, hSound, hExact⟩
  rw [computeIdom, generatePO, hSearch]
  exact hFinal

/-- The children in the tree are the blocks with their parent. -/
theorem mem_tree (hSound : Sound bb po idom) (hConsistent : Consistent bb)
    (hOrder : IsPostOrder (successorsOf bb) 0 po) (p c : Nat) :
    c ∈ ((List.range bb.length).map fun p =>
      (List.range' 1 (bb.length - 1)).filter fun i => idom i = some p).getD p [] ↔ Up idom 0 c p := by
  have hBound : ∀ v, (idom v).isSome → v < bb.length :=
    fun v hv => hConsistent.reachable_lt ((hOrder.mem_iff v).mp (hSound.reached v hv))
  rw [getD_eq_getElem?_getD, List.getElem?_map]
  constructor
  · intro hMem
    by_cases hp : p < bb.length
    · rw [List.getElem?_range hp] at hMem
      obtain ⟨hRange, hParent⟩ := List.mem_filter.mp hMem
      have hPositive := (mem_range'_1.mp hRange).1
      exact ⟨by omega, of_decide_eq_true hParent⟩
    · rw [List.getElem?_eq_none (by rw [length_range]; omega)] at hMem
      exact absurd hMem not_mem_nil
  · rintro ⟨hNe, hParent⟩
    have hChild := hBound c (hParent ▸ rfl)
    rw [List.getElem?_range (hBound p (hSound.up c p hNe hParent).1)]
    exact List.mem_filter.mpr ⟨mem_range'_1.mpr (by omega), decide_eq_true hParent⟩

/-- The computation ends without an error, and a block stands above a reachable one in the tree, or is equal to it,
exactly if every walk from the entry to this block passes it. -/
theorem computeDominatorTree_correct (bb : List BasicBlock) (hConsistent : Consistent bb) :
    ∃ tree, computeDominatorTree bb = .ok tree ∧ tree.length = bb.length ∧
      ∀ i j, Reachable (flow bb) 0 j → (TreeAncestor tree i j ↔ Dominates (flow bb) 0 i j) := by
  obtain ⟨po, idom, hOrder, hCompute, hSound, hExact⟩ := computeIdom_spec hConsistent
  refine ⟨_, by rw [computeDominatorTree, hCompute]; rfl, by simp, fun i j hReachable => ?_⟩
  rw [← (hExact j ((hOrder.mem_iff j).mpr hReachable)).2 i, TreeAncestor, ← reflTransGen_swap]
  have hSame : Function.swap (fun p c => c ∈ ((List.range bb.length).map fun p =>
      (List.range' 1 (bb.length - 1)).filter fun i => idom i = some p).getD p []) = Up idom 0 := by
    funext c p
    exact propext (mem_tree hSound hConsistent hOrder p c)
  rw [hSame]

/-- Two entries into a cycle, and a block that nothing leads to. -/
def irreducible : List BasicBlock :=
  [⟨[], [1, 2], []⟩, ⟨[], [2], [0, 2, 4]⟩, ⟨[], [1, 3], [0, 1]⟩, ⟨[], [], [2]⟩, ⟨[], [1], []⟩]

theorem irreducible_dominatorTree : Consistent irreducible ∧
    ∃ tree, computeDominatorTree irreducible = .ok tree ∧ tree.length = irreducible.length ∧
      ∀ i j, Reachable (flow irreducible) 0 j → (TreeAncestor tree i j ↔ Dominates (flow irreducible) 0 i j) :=
  ⟨by decide, computeDominatorTree_correct irreducible (by decide)⟩

example : computeDominatorTree irreducible = .ok [[1, 2], [], [3], [], []] := by decide +kernel

end KushDB.Khir
