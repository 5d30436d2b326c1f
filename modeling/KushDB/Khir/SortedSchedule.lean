import KushDB.Khir.IntervalSchedule

/-! # The sorted intervals

The interval of a value is the hull of what it touches, at every call each register that the call overwrites is
reserved, and in every sorted order the intervals are a schedule for the allocator.
-/

namespace KushDB.Khir

open Fallible Liveness RegisterPool List

/-- The interval at the number of a value is that of the value; only an argument of a call hands its interval over to
the register it is passed in. -/
def OwnIntervals (f : Function) (intervals : List LiveInterval) : Prop :=
  ∀ v a, intervals[v]? = some a → a.owner = .virtual v (f.instr v).typeOf ∨
    f.opcode v = .callArg ∧ ∃ r ∈ normalArgReg, a.owner = .precolored r

section Whole

variable {f : Function} {scanned parameters intervals : List LiveInterval}
variable {v rounds : Nat}

theorem exists_final (hExact : ExactIntervals f scanned) (hLt : v < f.instrs.length)
    (hStore : (f.opcode v).isStore = false) :
    ∃ a, (addClobbers f (extendStores f scanned)).intervals[v]? = some a ∧ a.Hull (Touched f v) := by
  obtain ⟨old, hOld, -, hHull⟩ := hExact.2 v hLt
  rw [(addClobbers_spec f _).intervals v, (extendStores_spec hExact).others v hStore, hOld, Option.map_some]
  refine ⟨_, rfl, ?_⟩
  split
  case isFalse => exact hHull
  case isTrue =>
    rw [coloured]
    split
    · exact ⟨hHull.covers, hHull.ends⟩
    · exact hHull

variable {a : LiveInterval} {r : Nat} {intervals : List LiveInterval}

theorem final_argument {s : Nat} (hOrder : f.order[s]? = some v) (hArg : f.opcode v = .callArg)
    (hRegister : normalArgReg[f.callRun s]? = some r)
    (hGet : (addClobbers f (extendStores f scanned)).intervals[v]? = some a) : a.owner = .precolored r := by
  rw [(addClobbers_spec f _).intervals v, take_length] at hGet
  obtain ⟨old, -, rfl⟩ := Option.map_eq_some_iff.mp hGet
  rw [if_pos ⟨mem_of_getElem? hOrder, hArg⟩, coloured, order_idxOf hOrder, hRegister]
  rfl

theorem Computed.mem_of_touched (h : Computed f scanned parameters intervals) {p : Nat} (hLt : v < f.instrs.length)
    (hStore : (f.opcode v).isStore = false) (hTouched : Touched f v p) :
    ∃ a ∈ intervals, (addClobbers f (extendStores f scanned)).intervals[v]? = some a ∧ a.contains p := by
  obtain ⟨a, hGet, hHull⟩ := exists_final h.exactScan hLt hStore
  obtain ⟨first, last, hRange, hContains⟩ := hHull.covers p hTouched
  have hDefined : a.undef = false := by rw [LiveInterval.undef, hRange]; rfl
  refine ⟨a, ?_, hGet, first, last, hRange, hContains⟩
  rw [h.filtered, mem_filter]
  refine ⟨mem_append_left _ (mem_append_left _ (mem_of_getElem? hGet)), ?_⟩
  rw [hDefined]
  rfl

/-- The interval of a value that is not a store is the hull of what the value touches. -/
theorem Computed.hull (h : Computed f scanned parameters intervals) (hMem : a ∈ intervals) {t : TypeKind}
    (hOwner : a.owner = .virtual v t) (hStore : (f.opcode v).isStore = false) : a.Hull (Touched f v) := by
  have hGet := (h.value hMem hOwner).2
  have hLt : v < f.instrs.length := by
    have hFinal := hGet
    rw [(addClobbers_spec f _).intervals v, (extendStores_spec h.exactScan).others v hStore] at hFinal
    obtain ⟨old, hOld, -⟩ := Option.map_eq_some_iff.mp hFinal
    obtain ⟨hLt, -⟩ := List.getElem?_eq_some_iff.mp hOld
    exact h.exactScan.1 ▸ hLt
  obtain ⟨b, hSame, hHull⟩ := exists_final h.exactScan hLt hStore
  obtain rfl := Option.some.inj (hSame.symm.trans hGet)
  exact hHull

theorem ownIntervals_final (hExact : ExactIntervals f scanned) :
    OwnIntervals f (addClobbers f (extendStores f scanned)).intervals := by
  intro v a hGet
  rw [(addClobbers_spec f _).intervals v] at hGet
  obtain ⟨old, hOld, hNew⟩ := Option.map_eq_some_iff.mp hGet
  have hOwner : old.owner = .virtual v (f.instr v).typeOf := by
    cases hStore : (f.opcode v).isStore with
    | true => exact ((extendStores_spec hExact).stores v hStore old hOld).1
    | false =>
      rw [(extendStores_spec hExact).others v hStore] at hOld
      obtain ⟨hLt, -⟩ := List.getElem?_eq_some_iff.mp hOld
      obtain ⟨other, hOther, hVirtual, -⟩ := hExact.2 v (hExact.1 ▸ hLt)
      obtain rfl := Option.some.inj (hOther.symm.trans hOld)
      exact hVirtual
  split at hNew
  case isFalse => exact Or.inl (hNew ▸ hOwner)
  case isTrue hArg =>
    rw [coloured] at hNew
    split at hNew
    case h_1 r hRegister => exact Or.inr ⟨hArg.2, r, mem_of_getElem? hRegister, hNew ▸ rfl⟩
    case h_2 => exact Or.inl (hNew ▸ hOwner)

theorem computeLiveIntervals_of_scan (hScanned : scanIntervals f rounds = .ok scanned) (hFit : ParametersFit f) :
    ∃ parameters, funcArgIntervals f f.instrs 0 0 0 = .ok parameters ∧
      computeLiveIntervals f rounds = .ok (((addClobbers f (extendStores f scanned)).intervals ++ parameters ++
        (addClobbers f (extendStores f scanned)).fixed).filter fun interval => !interval.undef) := by
  obtain ⟨parameters, hParameters⟩ :=
    (funcArgIntervals_ok_iff f.instrs (Nat.zero_le _) (Nat.zero_le _)).mpr (parametersFit_iff.mp hFit)
  refine ⟨parameters, hParameters, ?_⟩
  rw [computeLiveIntervals, hScanned]
  change (funcArgIntervals f f.instrs 0 0 0 >>= _) = _
  rw [hParameters]
  rfl

/-- With enough rounds the intervals of a readable function whose parameters fit are computed. -/
theorem computed_run (hReadable : Readable f) (hFit : ParametersFit f) : ∃ enough, ∀ rounds, enough < rounds →
    ∃ scanned parameters intervals, computeLiveIntervals f rounds = .ok intervals ∧
      Computed f scanned parameters intervals := by
  obtain ⟨enough, hEnough⟩ := scanIntervals_of_readable hReadable
  refine ⟨enough, fun rounds hRounds => ?_⟩
  obtain ⟨scanned, hScanned, hExact⟩ := hEnough rounds hRounds
  obtain ⟨parameters, hParameters, hOutput⟩ := computeLiveIntervals_of_scan hScanned hFit
  exact ⟨scanned, parameters, _, hOutput, hExact, hParameters, rfl⟩

section

variable (h : computeLiveIntervals f rounds = .ok intervals)
include h

theorem readable_of_intervals : Readable f := by
  by_contra hNot
  obtain ⟨_, _, _, _, message, _, hSets⟩ := liveInSets_of_not_readable hNot rounds
  obtain ⟨scanned, -, hScanned, -⟩ := computeLiveIntervals_eq_ok h
  rw [scanIntervals, hSets] at hScanned
  exact absurd hScanned (by simp [bind, Except.bind])

theorem parametersFit_of_intervals : ParametersFit f := by
  obtain ⟨scanned, parameters, -, hParameters, -⟩ := computeLiveIntervals_eq_ok h
  exact parametersFit_iff.mpr
    ((funcArgIntervals_ok_iff f.instrs (Nat.zero_le _) (Nat.zero_le _)).mp ⟨parameters, hParameters⟩)

/-- Intervals that were computed, with however many rounds, are those of such a run. -/
theorem computed_of_intervals : ∃ scanned parameters, Computed f scanned parameters intervals := by
  obtain ⟨enough, hEnough⟩ := computed_run (readable_of_intervals h) (parametersFit_of_intervals h)
  obtain ⟨scanned, parameters, others, hOthers, hComputed⟩ :=
    hEnough (max rounds (enough + 1)) (Nat.lt_of_succ_le (le_max_right _ _))
  rw [computeLiveIntervals_mono h (le_max_left _ _)] at hOthers
  obtain rfl := Except.ok.inj hOthers
  exact ⟨scanned, parameters, hComputed⟩

end

theorem Computed.range (h : Computed f scanned parameters intervals) {a : LiveInterval} (hMem : a ∈ intervals) :
    ∃ first last, a.range = some (first, last) ∧ first ≤ last := by
  have hSome : ∃ first last, a.range = some (first, last) := by
    rw [h.filtered] at hMem
    obtain ⟨-, hDefined⟩ := mem_filter.mp hMem
    cases hRange : a.range with
    | none => rw [LiveInterval.undef, hRange] at hDefined; exact absurd hDefined (by simp)
    | some range => exact ⟨range.1, range.2, rfl⟩
  obtain ⟨first, last, hRange⟩ := hSome
  refine ⟨first, last, hRange, ?_⟩
  have hOnly : ∀ {sort}, CoversOnly f sort a → first ≤ last := by
    rintro sort ⟨first', last', hRange', hLe, -⟩
    obtain ⟨rfl, rfl⟩ := Prod.mk.inj (Option.some.inj (hRange'.symm.trans hRange))
    exact hLe
  rcases h.cases hMem with ⟨w, hValue, -⟩ | ⟨i, hLt, hPlace, r, -, rfl⟩ | ⟨c, hClobber⟩
  · cases hValue with
    | plain hOwner hStore => exact ((h.hull hMem hOwner hStore).ends first last hRange).1
    | store hOrder hStore => exact hOnly (storeInterval_only hOrder hStore _)
    | argument hArgument => exact hOnly (hArgument.only _)
  · exact hOnly (parameter_only hLt hPlace)
  · exact hOnly (clobber_only hClobber)

/-- At a call every register that the call overwrites is reserved. -/
theorem Computed.reserved (h : Computed f scanned parameters intervals) (hReadable : Readable f) {c i : Nat}
    (hOrder : f.order[c]? = some i) (hCall : (f.opcode i).isCall = true)
    (hR : r ∈ normalArgReg ++ (fpArgReg ++ normalCallerSave ++ fpCallerSave)) :
    ∃ b ∈ intervals, b.owner = .precolored r ∧ b.contains c := by
  by_cases hClobbered : r ∈ clobberedAfter (f.callRun c)
  · refine ⟨⟨some (c, c), .precolored r⟩, ?_, rfl, c, c, rfl, le_rfl, le_rfl⟩
    rw [h.filtered, mem_filter]
    refine ⟨mem_append_right _ ?_, rfl⟩
    rw [(addClobbers_spec f _).fixed]
    obtain ⟨hLt, -⟩ := List.getElem?_eq_some_iff.mp hOrder
    refine mem_flatMap.mpr ⟨c, mem_range.mpr hLt, ?_⟩
    rw [clobbersAt, hOrder, Option.any_some, if_pos hCall]
    exact mem_map_of_mem hClobbered
  · -- the register is that of an argument, whose interval ends at the call
    rw [clobberedAfter, append_assoc, append_assoc, ← append_assoc fpArgReg, mem_append,
      not_or] at hClobbered
    have hArg : r ∈ normalArgReg := (mem_append.mp hR).resolve_right hClobbered.2
    obtain ⟨k, hK⟩ := mem_iff_getElem?.mp hArg
    have hLt : k < f.callRun c := by
      by_contra hGe
      refine hClobbered.1 (mem_iff_getElem?.mpr ⟨k - f.callRun c, ?_⟩)
      rw [getElem?_drop, Nat.add_sub_cancel' (not_lt.mp hGe), hK]
    obtain ⟨hLe, hRun⟩ := argsUpTo_of_callRun c (le_refl (f.callRun c))
    have hFrom : ArgsUpTo f (c - f.callRun c + k) c := hRun.from (Nat.le_add_right _ _) (by omega)
    obtain ⟨v, hV, hOpcode⟩ := hFrom.2 _ le_rfl (by omega)
    have hTouched := touched_of_call hReadable hV hFrom (by omega) hOrder hCall
    have hValue : v < f.instrs.length := lt_of_opcode_ne (by rw [hOpcode]; simp)
    obtain ⟨a, hMem, hGet, hContains⟩ := h.mem_of_touched hValue (by rw [hOpcode]; rfl) hTouched
    refine ⟨a, hMem, final_argument hV hOpcode ?_ hGet, hContains⟩
    have hHere := hFrom.callRun
    rw [show f.callRun (c - f.callRun c + k) = k by omega]
    exact hK

/-- With enough rounds the data flow ends in its least fixpoint and the check of the backward pass never fails: the
only errors are those of instructions that cannot be read and of parameters without a register. The intervals are in
the order of their values. -/
theorem computeLiveIntervals_sound (f : Function) : ∃ enough, ∀ rounds, enough < rounds →
    (∃ b < f.basicBlocks.length, ∃ point ∈ (f.block b).points, ∃ message, readsAt f point = .error message ∧
      message ≠ "Invalid liveness" ∧ liveInSets f rounds = .error message ∧ scanIntervals f rounds = .error message) ∨
    ∃ liveIn scanned, liveInSets f rounds = .ok liveIn ∧ LeastFixpoint f liveIn ∧
      scanIntervals f rounds = .ok scanned ∧ SoundIntervals f scanned ∧
      (ParametersFit f → ∃ output, computeLiveIntervals f rounds = .ok output) ∧
      ∀ output, computeLiveIntervals f rounds = .ok output → ∃ intervals fixed,
        output = (intervals ++ fixed).filter (fun interval => !interval.undef) ∧ SoundIntervals f intervals ∧
          OwnIntervals f intervals := by
  by_cases hReadable : Readable f
  · obtain ⟨enough, hEnough⟩ := liveInSets_of_readable hReadable
    obtain ⟨enough', hExact⟩ := scanIntervals_of_readable hReadable
    refine ⟨max enough enough', fun rounds hRounds => Or.inr ?_⟩
    obtain ⟨liveIn, hSets, hLeast⟩ := hEnough rounds ((le_max_left _ _).trans_lt hRounds)
    obtain ⟨scanned, hScan, -, hSound⟩ := scanIntervals_sound hLeast
    have hScanned : scanIntervals f rounds = .ok scanned := by
      rw [scanIntervals, hSets]
      exact hScan
    refine ⟨liveIn, scanned, hSets, leastFixpoint_of_least hLeast, hScanned, hSound, ?_, ?_⟩
    · intro hFit
      obtain ⟨parameters, -, hOutput⟩ := computeLiveIntervals_of_scan hScanned hFit
      exact ⟨_, hOutput⟩
    · intro output hOutput
      obtain ⟨other, parameters, hOther, -, hEq⟩ := computeLiveIntervals_eq_ok hOutput
      obtain rfl : other = scanned := Except.ok.inj (hOther.symm.trans hScanned)
      obtain ⟨others, hSame, hExact⟩ := hExact rounds ((le_max_right _ _).trans_lt hRounds)
      obtain rfl := Except.ok.inj (hSame.symm.trans hScanned)
      exact ⟨_, _, by rw [hEq, append_assoc], hSound.widened, ownIntervals_final hExact⟩
  · refine ⟨0, fun rounds _ => Or.inl ?_⟩
    obtain ⟨b, hBlock, point, hPoint, message, hRead, hSets⟩ := liveInSets_of_not_readable hReadable rounds
    refine ⟨b, hBlock, point, hPoint, message, hRead, readsAt_error hRead, hSets, ?_⟩
    rw [scanIntervals, hSets]
    rfl

end Whole

section Sorted

variable {f : Function} {scanned parameters intervals : List LiveInterval} (choices : Choices)

/-- The state the allocator starts from. -/
def sortedState (intervals : List LiveInterval) : ScanState :=
  ⟨choices.sort intervals, fun _ => none⟩

variable {k : Nat}

theorem sortedState_getElem (hLt : k < (choices.sort intervals).length) :
    (sortedState choices intervals).owner k = (choices.sort intervals)[k].owner ∧
      (sortedState choices intervals).startOf k = (choices.sort intervals)[k].start ∧
      (sortedState choices intervals).stopOf k = (choices.sort intervals)[k].stop := by
  have hGet : (sortedState choices intervals).intervals.getD k ⟨none, .virtual 0 .void⟩ =
      (choices.sort intervals)[k] := by
    rw [sortedState, getD_eq_getElem _ _ hLt]
  rw [ScanState.owner, ScanState.startOf, ScanState.stopOf, hGet]
  exact ⟨rfl, rfl, rfl⟩

theorem sort_apart (h : intervals.Pairwise (Apart f)) {j : Nat} (hJ : j < (choices.sort intervals).length)
    (hK : k < (choices.sort intervals).length) (hNe : j ≠ k) :
    Apart f (choices.sort intervals)[j] (choices.sort intervals)[k] := by
  have hSorted := (List.Perm.pairwise_iff Apart.symm (choices.sort_perm intervals)).mpr h
  rcases Nat.lt_or_gt_of_ne hNe with hLt | hLt
  · exact pairwise_iff_getElem.mp hSorted j k hJ hK hLt
  · exact (pairwise_iff_getElem.mp hSorted k j hK hJ hLt).symm

theorem Computed.schedule (h : Computed f scanned parameters intervals) :
    Schedule f (sortedState choices intervals) where
  sorted j k hLe hK := by
    have hJ : j < (choices.sort intervals).length := hLe.trans_lt hK
    rw [(sortedState_getElem choices hJ).2.1, (sortedState_getElem choices hK).2.1]
    rcases Nat.eq_or_lt_of_le hLe with rfl | hLt
    · exact le_rfl
    · exact pairwise_iff_getElem.mp (choices.sort_sorted intervals) j k hJ hK hLt
  distinct j hJ k hK v t t' hOwnerJ hOwnerK := by
    by_contra hNe
    rw [(sortedState_getElem choices hJ).1] at hOwnerJ
    rw [(sortedState_getElem choices hK).1] at hOwnerK
    exact (sort_apart choices h.pairwise hJ hK hNe).values v t t' hOwnerJ hOwnerK
  pools k hK r hOwner := by
    rw [(sortedState_getElem choices hK).1] at hOwner
    exact h.pools ((choices.sort_perm intervals).mem_iff.mp (getElem_mem hK)) hOwner
  fixed_apart j hJ k hK hNe r hOwnerJ hOwnerK := by
    rw [(sortedState_getElem choices hJ).1] at hOwnerJ
    rw [(sortedState_getElem choices hK).1] at hOwnerK
    rw [Overlap, (sortedState_getElem choices hJ).2.1, (sortedState_getElem choices hJ).2.2,
      (sortedState_getElem choices hK).2.1, (sortedState_getElem choices hK).2.2]
    exact (sort_apart choices h.pairwise hJ hK hNe).fixed r hOwnerJ hOwnerK
  store_apart j hJ k hK hNe hStore hOther := by
    rw [Khir.IsStore, (sortedState_getElem choices hK).1] at hStore
    rw [Khir.IsStore, (sortedState_getElem choices hJ).1] at hOther
    rw [Overlap, (sortedState_getElem choices hJ).2.1, (sortedState_getElem choices hJ).2.2,
      (sortedState_getElem choices hK).2.1, (sortedState_getElem choices hK).2.2]
    apply (sort_apart choices h.pairwise hJ hK hNe).stores
    rcases hOther with hBoth | hFixed
    · exact Or.inl ⟨hBoth, Or.inl hStore⟩
    · exact Or.inr ⟨hFixed, hStore⟩

end Sorted

end KushDB.Khir
