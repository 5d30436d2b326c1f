import KushDB.Khir.Dominators

/-! # Correctness of the dominator tree

At any time the immediate dominators found so far are a tree in which no dominator of a block is missing above it: a
block above another one reaches it on a path of smaller labels, so what dominates the lower block and stands above the
upper one dominates the upper one as well. After each pass, what stands above a block lies on all walks to it with fewer
edges against the order than passes were made. Both together say that the passes end, and in which tree.
-/

namespace KushDB.Khir

open KushDB.Fingers KushDB.Dominance KushDB.DepthFirst Relation List

section

variable (bb : List BasicBlock) (po : List Nat)

/-- A path on which all labels stay below that of its start. -/
def Descends (u v : Nat) : Prop :=
  ReflTransGen (fun x y => flow bb x y ∧ poLabel po y < poLabel po u) u v

/-- The immediate dominators are a tree on some reachable blocks, each above blocks that it reaches downwards, and no
dominator is missing above a block. -/
structure Sound (idom : Nat → Option Nat) : Prop where
  root : idom 0 = some 0
  reached : ∀ v, (idom v).isSome → v ∈ po
  up : ∀ v u, v ≠ 0 → idom v = some u → (idom u).isSome ∧ poLabel po v < poLabel po u
  descends : ∀ v u, v ≠ 0 → idom v = some u → Descends bb po u v
  lower : ∀ v i, (idom v).isSome → Dominates (flow bb) 0 i v → Ancestor idom 0 v i

/-- Where the fingers on the predecessors of a block meet. -/
def Meets (idom : Nat → Option Nat) (b y : Nat) : Prop :=
  (idom y).isSome ∧
    ∀ w, Ancestor idom 0 y w ↔ ∀ p ∈ predecessorsOf bb b, (idom p).isSome → Ancestor idom 0 p w

/-- What stands above a block lies on all walks to it with few edges against the order. -/
def Upper (count : Nat → Nat) (idom : Nat → Option Nat) : Prop :=
  ∀ v i, (idom v).isSome → Ancestor idom 0 v i →
    OnBounded (flow bb) (fun x y => poLabel po y < poLabel po x) 0 (count v) i v

end

variable {bb : List BasicBlock} {po : List Nat} {idom : Nat → Option Nat}
variable {v b : Nat}

theorem poLabel_of_mem (h : v ∈ po) : poLabel po v = po.idxOf v := if_pos h

variable {u p : Nat}

theorem Descends.trans {w : Nat} (hFirst : Descends bb po u v) (hLe : poLabel po v ≤ poLabel po u)
    (hSecond : Descends bb po v w) : Descends bb po u w :=
  ReflTransGen.trans hFirst
    (ReflTransGen.mono (fun _ _ hStep => ⟨hStep.1, Int.lt_of_lt_of_le hStep.2 hLe⟩) v w hSecond)

/-- What dominates the end of such a path and has a greater label than its start dominates the start. -/
theorem Descends.dominates {i : Nat} (h : Descends bb po b v) (hLabel : poLabel po b < poLabel po i)
    (hDominates : Dominates (flow bb) 0 i v) : Dominates (flow bb) 0 i b := by
  intro passed hWalk
  obtain ⟨longer, hLonger, hKeep⟩ := hWalk.extend h
  rcases hKeep i (hDominates longer hLonger) with hPassed | hBelow
  · exact hPassed
  · omega

theorem Sound.rooted (hOrder : IsPostOrder (successorsOf bb) 0 po) (h : Sound bb po idom) :
    Rooted idom (poLabel po) 0 (fun v => (idom v).isSome) where
  root_known := by rw [h.root]; rfl
  up v hKnown hNe := by
    obtain ⟨u, hu⟩ := Option.isSome_iff_exists.mp hKnown
    exact ⟨u, hu, h.up v u hNe hu⟩
  label_inj v w hv hw hEq := by
    rw [poLabel_of_mem (h.reached v hv), poLabel_of_mem (h.reached w hw)] at hEq
    exact (idxOf_inj (h.reached v hv)).mp (Int.ofNat_inj.mp hEq)
  label_nonneg v hv := by
    rw [poLabel_of_mem (h.reached v hv)]
    exact Int.natCast_nonneg _
  label_le v hv := by
    by_cases hNe : v = 0
    · exact hNe ▸ Int.le_refl _
    · rw [poLabel_of_mem (h.reached v hv), poLabel_of_mem hOrder.root_mem]
      exact Int.ofNat_le.mpr (Nat.le_of_lt (hOrder.lt_root (h.reached v hv) hNe))

theorem Sound.ancestor_descends (h : Sound bb po idom) (hAncestor : Ancestor idom 0 v u) : Descends bb po u v := by
  induction hAncestor with
  | refl => exact .refl
  | tail _ hUp ih =>
    have hLess := (h.up _ _ hUp.1 hUp.2).2
    exact (h.descends _ _ hUp.1 hUp.2).trans (Int.le_of_lt hLess) ih

theorem isSome_update {y : Nat} (h : (idom v).isSome) : (Function.update idom b (some y) v).isSome := by
  by_cases hHere : v = b
  · rw [hHere, Function.update_self]
    rfl
  · rwa [Function.update_of_ne hHere]

section

variable (hOrder : IsPostOrder (successorsOf bb) 0 po)
include hOrder

variable {b y : Nat}

/-- Above the new parent of a block nothing changes. -/
theorem Sound.ancestor_update (h : Sound bb po idom) {w : Nat} (hKnown : (idom y).isSome)
    (hLabel : poLabel po b < poLabel po y) :
    Ancestor (Function.update idom b (some y)) 0 y w ↔ Ancestor idom 0 y w := by
  have hAgree : ∀ u, u ≠ b → idom u = Function.update idom b (some y) u :=
    fun u hNe => (Function.update_of_ne hNe _ _).symm
  have hNotAbove : ¬ Ancestor idom 0 y b := by
    intro hAbove
    have hLe := ((h.rooted hOrder).ancestor_known hAbove hKnown).2
    omega
  constructor
  · intro hAncestor
    rcases hAncestor.of_agree (fun u hNe => (hAgree u hNe).symm) with hSame | ⟨-, hAbove, -⟩
    · exact hSame
    · exact absurd hAbove hNotAbove
  · intro hAncestor
    rcases hAncestor.of_agree hAgree with hSame | ⟨hAbove, -⟩
    · exact hSame
    · exact absurd hAbove hNotAbove

/-- Giving a block a parent that has all its strict dominators above it. -/
theorem Sound.update (h : Sound bb po idom) (hMem : b ∈ po) (hNe : b ≠ 0) (hKnown : (idom y).isSome)
    (hLabel : poLabel po b < poLabel po y) (hDescends : Descends bb po y b)
    (hDominators : ∀ i, Dominates (flow bb) 0 i b → i ≠ b → Ancestor idom 0 y i) :
    Sound bb po (Function.update idom b (some y)) := by
  have hOther : ∀ u, u ≠ b → Function.update idom b (some y) u = idom u :=
    fun u hu => Function.update_of_ne hu _ _
  have hSelf : Function.update idom b (some y) b = some y := Function.update_self b (some y) idom
  have hBelow : ∀ i, Dominates (flow bb) 0 i b → Ancestor (Function.update idom b (some y)) 0 b i := by
    intro i hi
    by_cases hHere : i = b
    · exact hHere ▸ .refl
    · apply ReflTransGen.head ⟨hNe, hSelf⟩
      exact (h.ancestor_update hOrder hKnown hLabel).mpr (hDominators i hi hHere)
  constructor
  · rw [hOther 0 hNe.symm, h.root]
  · intro v hv
    by_cases hHere : v = b
    · exact hHere ▸ hMem
    · exact h.reached v (hOther v hHere ▸ hv)
  · intro v u hv hu
    by_cases hHere : v = b
    · subst hHere
      obtain rfl : y = u := Option.some.inj (hSelf.symm.trans hu)
      exact ⟨isSome_update hKnown, hLabel⟩
    · rw [hOther v hHere] at hu
      exact ⟨isSome_update (h.up v u hv hu).1, (h.up v u hv hu).2⟩
  · intro v u hv hu
    by_cases hHere : v = b
    · subst hHere
      exact Option.some.inj (hSelf.symm.trans hu) ▸ hDescends
    · exact h.descends v u hv (hOther v hHere ▸ hu)
  · intro v i hv hi
    by_cases hHere : v = b
    · exact hHere ▸ hBelow i (hHere ▸ hi)
    · rw [hOther v hHere] at hv
      rcases (h.lower v i hv hi).of_agree (fun u hu => (hOther u hu).symm) with hSame | ⟨hAbove, hNew, hRest, hApart⟩
      · exact hSame
      · have hBlock := ((h.rooted hOrder).ancestor_known hAbove hv).1
        have hRise := (h.rooted hOrder).ancestor_lt hRest hBlock hApart
        exact hNew.trans (hBelow i ((h.ancestor_descends hAbove).dominates hRise hi))

variable {p : Nat}

/-- The meeting point is such a parent, if a predecessor with a greater label is among the known blocks. -/
theorem Sound.meet (h : Sound bb po idom) (hMem : b ∈ po) (hNe : b ≠ 0) (hMeets : Meets bb idom b y)
    (hConsistent : ∀ q, q ∈ predecessorsOf bb b → flow bb q b) (hPred : p ∈ predecessorsOf bb b)
    (hKnown : (idom p).isSome) (hLabel : poLabel po b < poLabel po p) :
    poLabel po b < poLabel po y ∧ Sound bb po (Function.update idom b (some y)) := by
  have hAbove : Ancestor idom 0 p y := (hMeets.2 y).mp .refl p hPred hKnown
  have hRise := ((h.rooted hOrder).ancestor_known hAbove hKnown).2
  have hHigher : poLabel po b < poLabel po y := by omega
  refine ⟨hHigher, h.update hOrder hMem hNe hMeets.1 hHigher ?_ ?_⟩
  · exact (h.ancestor_descends hAbove).tail ⟨hConsistent p hPred, hHigher⟩
  · intro i hDominates hApart
    apply (hMeets.2 i).mpr
    intro q hq hqKnown
    exact h.lower q i hqKnown (hDominates.pred hApart (hConsistent q hq))

/-- The fingers on any known predecessors meet. -/
theorem Sound.fold_meets (h : Sound bb po idom) (hLength : po.length ≤ bb.length) (preds : List Nat)
    (newIdom : Option Nat) (hNew : ∀ q, newIdom = some q → (idom q).isSome) :
    ∃ found, preds.foldlM (meetPredecessor bb (poLabel po) idom) newIdom = .ok found ∧
      (found = none → newIdom = none ∧ ∀ p ∈ preds, idom p = none) ∧
      ∀ y, found = some y → (idom y).isSome ∧ ∀ w, Ancestor idom 0 y w ↔
        (∀ q, newIdom = some q → Ancestor idom 0 q w) ∧ ∀ p ∈ preds, (idom p).isSome → Ancestor idom 0 p w := by
  induction preds generalizing newIdom with
  | nil =>
    refine ⟨newIdom, rfl, fun hNone => ⟨hNone, fun _ hp => absurd hp not_mem_nil⟩, fun y hy => ⟨hNew y hy, ?_⟩⟩
    subst hy
    simp
  | cons p preds ih =>
    cases hp : idom p with
    | none =>
      obtain ⟨found, hFold, hAbsent, hFound⟩ := ih newIdom hNew
      refine ⟨found, ?_, fun hNone => ⟨(hAbsent hNone).1, ?_⟩, fun y hy => ⟨(hFound y hy).1, fun w => ?_⟩⟩
      · rw [foldlM_cons, meetPredecessor_of_none hp]
        exact hFold
      · exact List.forall_mem_cons.mpr ⟨hp, (hAbsent hNone).2⟩
      · rw [(hFound y hy).2 w]
        simp [hp]
    | some u =>
      have hKnown : (idom p).isSome := hp ▸ rfl
      cases hCase : newIdom with
      | none =>
        obtain ⟨found, hFold, hAbsent, hFound⟩ := ih (some p) (fun q hq => Option.some.inj hq ▸ hKnown)
        refine ⟨found, ?_, fun hNone => absurd (hAbsent hNone).1 (Option.some_ne_none p),
          fun y hy => ⟨(hFound y hy).1, fun w => ?_⟩⟩
        · rw [foldlM_cons, meetPredecessor_first hp]
          exact hFold
        · rw [(hFound y hy).2 w]
          simp [hp]
      | some q =>
        have hRooted := h.rooted hOrder
        have hRounds : 2 * (poLabel po 0).toNat < 2 * bb.length := by
          have hLess := idxOf_lt_length_of_mem hOrder.root_mem
          rw [poLabel_of_mem hOrder.root_mem]
          omega
        obtain ⟨meeting, hMeeting, hMeetingKnown, hCommon⟩ :=
          hRooted.intersect_spec hKnown (hNew q hCase) hRounds
        obtain ⟨found, hFold, hAbsent, hFound⟩ := ih (some meeting) (fun q hq => Option.some.inj hq ▸ hMeetingKnown)
        refine ⟨found, ?_, fun hNone => absurd (hAbsent hNone).1 (Option.some_ne_none meeting),
          fun y hy => ⟨(hFound y hy).1, fun w => ?_⟩⟩
        · rw [foldlM_cons, meetPredecessor_next hp hMeeting]
          exact hFold
        · rw [(hFound y hy).2 w]
          simp only [Option.some.injEq, forall_eq', hCommon, forall_mem_cons, hKnown, forall_const]
          exact ⟨fun hAll => ⟨hAll.1.2, hAll.1.1, hAll.2⟩, fun hAll => ⟨⟨hAll.2.1, hAll.1⟩, hAll.2.2⟩⟩

theorem Sound.updateIdom_eq (h : Sound bb po idom) (hLength : po.length ≤ bb.length) (hNe : b ≠ 0)
    (hPred : p ∈ predecessorsOf bb b) (hKnown : (idom p).isSome) (changed : Bool) :
    ∃ y, Meets bb idom b y ∧ updateIdom bb (poLabel po) (idom, changed) b =
      .ok (Function.update idom b (some y), changed || decide (idom b ≠ some y)) := by
  obtain ⟨found, hFold, hAbsent, hFound⟩ := h.fold_meets hOrder hLength (predecessorsOf bb b) none (by simp)
  cases found with
  | none => rw [(hAbsent rfl).2 p hPred] at hKnown; exact absurd hKnown Bool.false_ne_true
  | some y =>
    refine ⟨y, ⟨(hFound y rfl).1, fun w => by rw [(hFound y rfl).2 w]; simp⟩, ?_⟩
    rw [updateIdom, if_neg hNe, hFold]
    change (if idom b ≠ some y then _ else _) = _
    by_cases hSame : idom b = some y
    · rw [if_neg (not_not_intro hSame), ← hSame, Function.update_eq_self]
      simp
    · rw [if_pos hSame]
      simp [hSame]

end

/-! ## A block of a pass -/

theorem Consistent.reachable_lt (h : Consistent bb) (hReachable : Reachable (flow bb) 0 b) : b < bb.length := by
  induction hReachable with
  | refl => exact h.entry
  | tail _ hEdge ih => exact h.successors_lt _ ih _ hEdge

theorem Consistent.flow_of_pred (h : Consistent bb) (hBlock : b < bb.length) (hPred : p ∈ predecessorsOf bb b) :
    flow bb p b :=
  ((h.predecessors_iff b hBlock p).mp hPred).2

theorem Consistent.pred_of_flow (h : Consistent bb) (hReachable : Reachable (flow bb) 0 p) (hEdge : flow bb p b) :
    p ∈ predecessorsOf bb b :=
  (h.predecessors_iff b (h.reachable_lt (hReachable.tail hEdge)) p).mpr ⟨h.reachable_lt hReachable, hEdge⟩

section

variable (hConsistent : Consistent bb) (hOrder : IsPostOrder (successorsOf bb) 0 po)
include hConsistent hOrder

variable {b y : Nat}

/-- A walk to the block comes over a predecessor, and what stands above the meeting point stands above them all. -/
theorem Upper.meet {count : Nat → Nat} {round : Nat} (h : Sound bb po idom) (hUpper : Upper bb po count idom)
    (hCount : ∀ v, round ≤ count v ∧ count v ≤ round + 1) (hNe : b ≠ 0) (hMeets : Meets bb idom b y)
    (hLabel : poLabel po b < poLabel po y)
    (hForward : ∀ p ∈ po, poLabel po b < poLabel po p → (idom p).isSome ∧ count p = round + 1)
    (hAll : 0 < round → ∀ p ∈ po, (idom p).isSome) :
    Upper bb po (fun v => if v = b then round + 1 else count v) (Function.update idom b (some y)) := by
  have hOther : ∀ u, u ≠ b → Function.update idom b (some y) u = idom u :=
    fun u hu => Function.update_of_ne hu _ _
  have hAbove : ∀ i, Ancestor (Function.update idom b (some y)) 0 b i →
      OnBounded (flow bb) (fun x y => poLabel po y < poLabel po x) 0 (round + 1) i b := by
    intro i hi
    by_cases hHere : i = b
    · exact hHere ▸ .refl _ _
    · have hNext : Ancestor idom 0 y i := (h.ancestor_update hOrder hMeets.1 hLabel).mp
        (hi.of_up ⟨hNe, Function.update_self b (some y) idom⟩ hHere)
      have hPreds := (hMeets.2 i).mp hNext
      intro k hk passed hBounded
      cases hBounded with
      | start => exact absurd rfl hNe
      | @forward _ p _ passed hBefore hEdge hDown =>
        have hReachable := hBefore.walk.reachable
        obtain ⟨hKnown, hRound⟩ := hForward p ((hOrder.mem_iff p).mpr hReachable) hDown
        have hOn := hUpper p i hKnown (hPreds p (hConsistent.pred_of_flow hReachable hEdge) hKnown)
        exact mem_cons_of_mem _ (hOn k (hRound ▸ hk) passed hBefore)
      | @back k p _ passed hBefore hEdge =>
        have hReachable := hBefore.walk.reachable
        have hKnown := hAll (by omega) p ((hOrder.mem_iff p).mpr hReachable)
        have hOn := hUpper p i hKnown (hPreds p (hConsistent.pred_of_flow hReachable hEdge) hKnown)
        have hRound := (hCount p).1
        exact mem_cons_of_mem _ (hOn k (by omega) passed hBefore)
  intro v i hv hi
  dsimp only
  by_cases hHere : v = b
  · subst hHere
    rw [if_pos rfl]
    exact hAbove i hi
  · rw [hOther v hHere] at hv
    rw [if_neg hHere]
    rcases hi.of_agree hOther with hSame | ⟨-, hBlock, hRest, -⟩
    · exact hUpper v i hv hSame
    · exact ((hAbove i hRest).mono (hCount v).2).trans (hUpper v b hv hBlock)

/-- All dominators of the reachable blocks stand above them, and nothing else does. -/
def Exact (bb : List BasicBlock) (po : List Nat) (idom : Nat → Option Nat) : Prop :=
  ∀ v ∈ po, (idom v).isSome ∧ ∀ i, Ancestor idom 0 v i ↔ Dominates (flow bb) 0 i v

/-- A meeting point in the right tree is the parent that the block already has. -/
theorem Exact.meets (h : Sound bb po idom) (hExact : Exact bb po idom) (hMem : b ∈ po) (hNe : b ≠ 0)
    (hMeets : Meets bb idom b y) (hLabel : poLabel po b < poLabel po y) : idom b = some y := by
  have hRooted := h.rooted hOrder
  obtain ⟨hKnown, hAbove⟩ := hExact b hMem
  obtain ⟨u, hu⟩ := Option.isSome_iff_exists.mp hKnown
  have hBlock := hConsistent.reachable_lt ((hOrder.mem_iff b).mp hMem)
  have hSame : ∀ w, Ancestor idom 0 y w ↔ Ancestor idom 0 u w := by
    intro w
    constructor
    · intro hw
      have hApart : w ≠ b := by
        rintro rfl
        have hLe := (hRooted.ancestor_known hw hMeets.1).2
        omega
      apply Ancestor.of_up ⟨hNe, hu⟩ _ hApart
      apply (hAbove w).mpr
      intro passed hWalk
      cases hWalk with
      | start => exact absurd rfl hNe
      | @step p _ passed hBefore hEdge =>
        have hReachable := hBefore.reachable
        obtain ⟨hPredKnown, hPred⟩ := hExact p ((hOrder.mem_iff p).mpr hReachable)
        have hDominates := (hPred w).mp
          ((hMeets.2 w).mp hw p (hConsistent.pred_of_flow hReachable hEdge) hPredKnown)
        exact mem_cons_of_mem _ (hDominates passed hBefore)
    · intro hw
      have hRise := (h.up b u hNe hu).2
      have hApart : w ≠ b := by
        rintro rfl
        have hLe := (hRooted.ancestor_known hw (h.up w u hNe hu).1).2
        omega
      have hDominates := (hAbove w).mp (hw.head ⟨hNe, hu⟩)
      apply (hMeets.2 w).mpr
      intro p hPred hPredKnown
      exact h.lower p w hPredKnown (hDominates.pred hApart (hConsistent.flow_of_pred hBlock hPred))
  rw [hu, hRooted.ancestor_antisymm hMeets.1 ((hSame u).mpr .refl) ((hSame y).mp .refl)]

end

end KushDB.Khir
