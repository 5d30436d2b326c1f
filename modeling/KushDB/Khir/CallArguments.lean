import KushDB.Khir.EmitterLiveness

/-! # Where the arguments of a call may be kept

The arguments of a call stand side by side before it. The interval of the `n`-th of them reaches from its own place to
the call and reserves the `n`-th argument register there, whatever its type. So the value of a later argument is kept
in none of the argument registers of the arguments up to it.
-/

namespace KushDB.Khir

open Liveness List

/-- The arguments of a call in order. -/
def callArguments (body : Body) (first i : Nat) : List Nat :=
  (callArgsBefore body first i).reverse

theorem callArguments_eq_range' (body : Body) (first i : Nat) :
    ∃ count ≤ i, callArguments body first i = List.range' (i - count) count := by
  induction i with
  | zero => exact ⟨0, le_rfl, rfl⟩
  | succ i ih =>
    rw [callArguments, callArgsBefore]
    split
    case isFalse => exact ⟨0, Nat.zero_le _, rfl⟩
    case isTrue =>
      obtain ⟨count, hLe, hRange⟩ := ih
      refine ⟨count + 1, Nat.succ_le_succ hLe, ?_⟩
      rw [reverse_cons, Nat.add_sub_add_right, List.range'_concat, Nat.one_mul, Nat.sub_add_cancel hLe, ← hRange]
      rfl

section Positions

variable {f : Function} {b k first i : Nat}
variable {j : Nat}

theorem mem_callArguments : j ∈ callArguments f.toBody first i ↔ j ∈ callArgsBefore f.toBody first i :=
  mem_reverse

variable {n : Nat}

/-- The `n`-th argument of a call. -/
theorem callArguments_getElem? (h : (callArguments f.toBody first i)[n]? = some j) :
    n < (callArguments f.toBody first i).length ∧ j + (callArguments f.toBody first i).length = i + n := by
  obtain ⟨count, hLe, hRange⟩ := callArguments_eq_range' f.toBody first i
  obtain ⟨hLt, hEq⟩ := List.getElem?_eq_some_iff.mp h
  refine ⟨hLt, ?_⟩
  simp only [hRange, length_range', getElem_range'] at hLt hEq ⊢
  omega

section

variable (hAt : StandsAt f b k first i)
include hAt

theorem StandsAt.unique {b' k' first' : Nat} (hAt' : StandsAt f b' k' first' i) (hSame : f.base b' + k' = f.base b + k) :
    first' = first := by
  have hPlace := f.places_getElem? hAt.block hAt.code
  have hPlace' := f.places_getElem? hAt'.block hAt'.code
  rw [hSame] at hPlace'
  obtain ⟨rfl, -⟩ := Prod.mk.inj (Option.some.inj (hPlace.symm.trans hPlace'))
  obtain rfl : k' = k := by omega
  exact (Prod.mk.inj (Option.some.inj (hAt'.point.symm.trans hAt.point))).1

/-- No argument of another call stands before the first argument. -/
theorem callRun_first (hBound : (callArguments f.toBody first i).length ≤ f.base b + k)
    (hArgs : ArgsUpTo f (f.base b + k - (callArguments f.toBody first i).length) (f.base b + k)) :
    f.callRun (f.base b + k - (callArguments f.toBody first i).length) = 0 := by
  obtain ⟨count, hLe, hRange⟩ := callArguments_eq_range' f.toBody first i
  generalize hLength : (callArguments f.toBody first i).length = length at hBound hArgs ⊢
  obtain rfl : length = count := by rw [← hLength, hRange, length_range']
  cases hStart : f.base b + k - length with
  | zero => rfl
  | succ q =>
    rw [Body.callRun]
    apply if_neg
    intro hAny
    obtain ⟨w, hOrder, hArg⟩ := (Option.any_eq_true _ _).mp hAny
    have hLonger : ArgsUpTo f q (f.base b + k) := by
      refine ⟨by omega, fun p hP hLt => ?_⟩
      rcases Nat.eq_or_lt_of_le hP with rfl | hLater
      · exact ⟨w, hOrder, of_decide_eq_true hArg⟩
      · exact hArgs.2 p (by omega) hLt
    obtain ⟨b', k', first', hSame, hAt', hMem⟩ := hLonger.mem_callArgsBefore hOrder (by omega) hAt.order
    rw [hAt.unique hAt' hSame] at hMem
    have hNumber := Option.some.inj ((hLonger.order hOrder).symm.trans hAt.order)
    have hIn := mem_callArguments.mpr hMem
    rw [hRange, mem_range'_1] at hIn
    omega

theorem callRun_argument (hArg : (callArguments f.toBody first i)[n]? = some j) :
    f.callRun (f.base b + (k - (i - j))) = n := by
  obtain ⟨hLt, hNumber⟩ := callArguments_getElem? hArg
  obtain ⟨count, hLe, hRange⟩ := callArguments_eq_range' f.toBody first i
  have hLength : (callArguments f.toBody first i).length = count := by rw [hRange, length_range']
  have hMem : i - count ∈ callArgsBefore f.toBody first i := by
    rw [← mem_callArguments, hRange, mem_range'_1]
    omega
  obtain ⟨hBound, -⟩ := hAt.before (mem_callArgsBefore.mp hMem).1 (Nat.sub_le i count)
  have hUpTo := argsUpTo_of_mem hAt hMem
  have hStart : f.base b + (k - (i - (i - count))) = f.base b + k - (callArguments f.toBody first i).length := by omega
  rw [hStart] at hUpTo
  have hZero := callRun_first hAt (by omega) hUpTo
  have hRun := (hUpTo.mono (q := f.base b + (k - (i - j))) (by omega) (by omega)).callRun
  omega

end

end Positions

section Reserved

variable {f : Function} {b k first i : Nat} {scanned parameters intervals : List LiveInterval}
variable {j : Nat}

section

variable (hReadable : Readable f) (hAt : StandsAt f b k first i) (hCall : (f.opcode i).isCall = true)
  (hMem : j ∈ callArgsBefore f.toBody first i)
include hReadable hAt hCall hMem

/-- An argument is live from behind its own place up to its call. -/
theorem liveAt_argument (d : Nat) (hBetween : j + d < i) : (flowGraph f).LiveAt j b (k - d) := by
  obtain ⟨hFirst, hLt, hArgs⟩ := mem_callArgsBefore.mp hMem
  obtain ⟨hBound, -⟩ := hAt.before hFirst hLt.le
  have hSteps : ∀ {q : Nat} {point : Nat × Nat}, (f.block b).points[q]? = some point →
      ((flowGraph f).steps b)[q]? = some (stepAt f point) := by
    intro q point hPoint'
    change ((f.block b).points.map (stepAt f))[q]? = _
    rw [getElem?_map, hPoint']
    rfl
  induction d with
  | zero =>
    obtain ⟨listed, hListed⟩ := hReadable b hAt.block _ (mem_of_getElem? hAt.point)
    apply Graph.LiveAt.read (hSteps hAt.point)
    change j ∈ readValues f (first, i)
    rw [readValues, hListed]
    exact call_reads hCall hListed hMem
  | succ d ih =>
    obtain ⟨-, hHere⟩ := hAt.before (j := i - (d + 1)) (by omega) (by omega)
    rw [show k - (i - (i - (d + 1))) = k - (d + 1) by omega] at hHere
    apply Graph.LiveAt.pass (hSteps hHere.point)
    · change writtenAt f (first, i - (d + 1)) ≠ some j
      rw [writtenAt_callArg (hArgs _ (by omega) (by omega))]
      intro hEq
      have := Option.some.inj hEq
      omega
    · rw [show k - (d + 1) + 1 = k - d by omega]
      exact ih (by omega)

theorem touched_argument : Touched f j (f.base b + (k - (i - j))) := by
  obtain ⟨hFirst, hLt, -⟩ := mem_callArgsBefore.mp hMem
  obtain ⟨hBound, hHere⟩ := hAt.before hFirst hLt.le
  have hLive := liveAt_argument hReadable hAt hCall hMem (i - j - 1) (by omega)
  refine ⟨b, hAt.block, _, hLive, (first, j), Or.inr ⟨by omega, ?_⟩, hHere.position⟩
  rw [show k - (i - j - 1) - 1 = k - (i - j) by omega]
  exact hHere.point

end

/-- From the `n`-th argument up to the call the `n`-th argument register is reserved. -/
theorem Computed.reserved_argument (h : Computed f scanned parameters intervals) (hReadable : Readable f)
    (hAt : StandsAt f b k first i) (hCall : (f.opcode i).isCall = true) {n r : Nat}
    (hArg : (callArguments f.toBody first i)[n]? = some j)
    (hRegister : normalArgReg[n]? = some r) : ∃ a ∈ intervals, a.owner = .precolored r ∧
      ∀ p, f.base b + (k - (i - j)) ≤ p → p ≤ f.base b + k → a.contains p := by
  have hMem := mem_callArguments.mp (mem_of_getElem? hArg)
  obtain ⟨hFirst, hLt, hArgs⟩ := mem_callArgsBefore.mp hMem
  obtain ⟨hBound, hHere⟩ := hAt.before hFirst hLt.le
  have hOpcode := hArgs j le_rfl hLt
  have hUpTo := argsUpTo_of_mem hAt hMem
  have hInstr : j < f.instrs.length := lt_of_opcode_ne (by rw [hOpcode]; simp)
  have hStore : (f.opcode j).isStore = false := by rw [hOpcode]; rfl
  obtain ⟨a, hIn, hGet, hFrom⟩ := h.mem_of_touched hInstr hStore (touched_argument hReadable hAt hCall hMem)
  obtain ⟨a', -, hGet', hTo⟩ :=
    h.mem_of_touched hInstr hStore (touched_of_call hReadable hHere.order hUpTo (by omega) hAt.order hCall)
  obtain rfl := Option.some.inj (hGet.symm.trans hGet')
  refine ⟨a, hIn, final_argument hHere.order hOpcode ?_ hGet, fun p => contains_between hFrom hTo⟩
  rw [callRun_argument hAt hArg]
  exact hRegister

variable {x : Nat}

/-- The value of an argument has an interval around the argument. -/
theorem Computed.argument_value (h : Computed f scanned parameters intervals) (hResolved : f.Resolved)
    (hReadable : Readable f) (hAt : StandsAt f b k first i) (hMem : j ∈ callArgsBefore f.toBody first i)
    (hIn : x ∈ (f.instr j).arg.instruction) :
    ∃ a ∈ intervals, (∃ t, a.owner = .virtual x t) ∧ a.contains (f.base b + (k - (i - j))) := by
  obtain ⟨hFirst, hLt, hArgs⟩ := mem_callArgsBefore.mp hMem
  obtain ⟨-, hHere⟩ := hAt.before hFirst hLt.le
  have hOpcode : (f.instr j).opcode = .callArg := hArgs j le_rfl hLt
  have hOperand : IsOperand f x := by
    refine @isOperand_of_mem f j x (f.instr j).arg ?_ hIn
    rw [Instr.operands, hOpcode]
    exact mem_cons_self
  obtain ⟨listed, hListed⟩ := hReadable b hAt.block _ (mem_of_getElem? hHere.point)
  have hTouched : Touched f x (f.base b + (k - (i - j))) := by
    apply touched_of_read hHere hListed
    rw [readsAt, getReadValues] at hListed
    dsimp only at hListed
    rw [hOpcode] at hListed
    exact materialized_ok hListed ▸ hIn
  exact h.of_spans (hOperand.lt hResolved) hOperand (spans_of_touched hTouched)

/-- The interval of a value carries the type of the value. -/
theorem Computed.owner_type (h : Computed f scanned parameters intervals) {a : LiveInterval} (hMem : a ∈ intervals)
    {t : TypeKind} (hOwner : a.owner = .virtual x t) : t = (f.instr x).typeOf := by
  rcases ownIntervals_final h.exactScan x a (h.value hMem hOwner).2 with hOwn | ⟨-, r, -, hPrecolored⟩
  · exact (Owner.virtual.inj (hOwner.symm.trans hOwn)).2
  · exact absurd (hOwner.symm.trans hPrecolored) (by simp)

end Reserved

section Allocated

variable {f : Function} {b k first i : Nat} {scanned parameters intervals : List LiveInterval} {choices : Choices}
  {scan : Scan} {now : Nat}

/-- A value that is not in the flags is in a register of its class, and the value of an argument is not in a register
that an argument up to it reserves. -/
structure PlacedForCall (f : Function) (assignments : Nat → Option Nat) (first i : Nat) : Prop where
  classes : ∀ j ∈ callArguments f.toBody first i, ∀ x ∈ (f.instr j).arg.instruction, ∀ r, assignments x = some r →
    r ∈ (f.instr x).typeOf.pool ∨ (f.opcode x).flag = some r
  reserved : ∀ n m j : Nat, n ≤ m → (callArguments f.toBody first i)[m]? = some j → ∀ x ∈ (f.instr j).arg.instruction, ∀ r,
    normalArgReg[n]? = some r → assignments x ≠ some r

theorem Allocated.placedForCall (h : Allocated f choices scanned parameters intervals now scan)
    (hResolved : f.Resolved) (hReadable : Readable f) (hAt : StandsAt f b k first i) (hCall : (f.opcode i).isCall = true) :
    PlacedForCall f scan.state.assignments first i where
  classes j hJ x hIn r hHeld := by
    have hMem := mem_callArguments.mp hJ
    obtain ⟨hFirst, hLt, hArgs⟩ := mem_callArgsBefore.mp hMem
    have hStore : (f.opcode x).isStore = false := by
      refine (@isOperand_of_mem f j x (f.instr j).arg ?_ hIn).not_isStore
      rw [Instr.operands, show (f.instr j).opcode = .callArg from hArgs j le_rfl hLt]
      exact mem_cons_self
    obtain ⟨a, hA, ⟨t, hOwner⟩, -⟩ := h.computed.argument_value hResolved hReadable hAt hMem hIn
    obtain ⟨index, hIndex, hSame, hStart, hStop⟩ := exists_index choices hA
    have hRegister := (h.invariant.assigned index hIndex x t (hSame.trans hOwner)).symm.trans hHeld
    have hNotStore : ¬ IsStore f (sortedState choices intervals) index := by
      rintro ⟨w, t', hVirtual, hForm⟩
      obtain ⟨rfl, -⟩ := Owner.virtual.inj ((hSame.trans hOwner).symm.trans hVirtual)
      exact absurd ((isStore_of_allocForm hForm).symm.trans hStore) (by simp)
    rw [← h.computed.owner_type hA hOwner]
    refine (h.invariant.classes index hIndex x t r (hSame.trans hOwner) hNotStore hRegister).imp_right fun hFlagged => ?_
    exact ((flagged_iff h hA hOwner hSame hStart hStop).mp hFlagged).1
  reserved n m j hLe hJ x hIn r hRegister := by
    have hMem := mem_callArguments.mp (mem_of_getElem? hJ)
    obtain ⟨hFirst, hLt, -⟩ := mem_callArgsBefore.mp hMem
    obtain ⟨hM, hNumber⟩ := callArguments_getElem? hJ
    obtain ⟨j', hJ'⟩ : ∃ j', (callArguments f.toBody first i)[n]? = some j' :=
      ⟨_, getElem?_eq_getElem (hLe.trans_lt hM)⟩
    obtain ⟨-, hNumber'⟩ := callArguments_getElem? hJ'
    obtain ⟨a, hA, ⟨t, hOwner⟩, hContains⟩ := h.computed.argument_value hResolved hReadable hAt hMem hIn
    obtain ⟨c, hC, hPrecolored, hCovers⟩ :=
      h.computed.reserved_argument hReadable hAt hCall hJ' hRegister
    exact h.fixed hA hC hOwner hPrecolored
      (LiveInterval.meets_of_contains hContains (hCovers _ (by omega) (by omega)))

end Allocated

end KushDB.Khir
