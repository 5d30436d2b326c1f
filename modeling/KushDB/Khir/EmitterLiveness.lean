import KushDB.Khir.EmittedReads

/-! # Live reads of the emitter

The live intervals are computed from the values that are listed as read, and the emitter reads a little more than that.
Every read of the emitter falls into the interval of its value exactly if the reads that are not listed happen to be
between two places where the value is live.
-/

namespace KushDB.Khir

open Liveness List

/-- Every value the emitter reads for an instruction has a live interval with the instruction in it. -/
def EmitsLiveReads (f : Function) : Prop :=
  ∀ rounds intervals, computeLiveIntervals f rounds = .ok intervals →
    ∀ emitted : List Nat, (∀ c ∈ emitted, c < f.basicBlocks.length) →
      ∀ b < f.basicBlocks.length, ∀ k i, (f.block b).code[k]? = some i → ∀ reads,
        emittedReads f.toBody f.computeGEPMaterialize (pendingAt f.toBody emitted b k) i = .ok reads →
          ∀ v ∈ reads, ∃ a ∈ intervals, (∃ t, a.owner = .virtual v t) ∧ a.contains (f.position b i)

/-- The value is live somewhere up to the position and somewhere from it on. -/
def Spans (f : Function) (v p : Nat) : Prop :=
  (∃ q ≤ p, Touched f v q) ∧ ∃ q ≥ p, Touched f v q

/-- The position falls into the interval of the value: the value is live around it, or is the store that stands there,
which has an interval of its own. -/
def Covered (f : Function) (v p : Nat) : Prop :=
  Spans f v p ∨ f.order[p]? = some v ∧ (f.opcode v).isStore = true

/-- The four kinds of reads that are not listed fall into the intervals of their values. -/
structure StrayReadsLive (f : Function) : Prop where
  arguments : ∀ c i, f.order[c]? = some i → (f.opcode i).isCall = true → ∀ s j, f.order[s]? = some j → s < c →
    ArgsUpTo f s c → ∀ x ∈ (f.instr j).arg.instruction, ∃ q ≥ c, Touched f x q
  accesses : ∀ p i, f.order[p]? = some i → ∀ v, f.accessed i = some v → f.isGep v = true →
    f.computeGEPMaterialize v.idx = true → ∀ reads, ptrValueReads f.toBody v = .ok reads → ∀ x ∈ reads, Covered f x p
  constants : ∀ p i, f.order[p]? = some i → f.looksUp i = true → (f.instr i).arg0.isConstantGlobal = true →
    Covered f (f.instr i).arg0.idx p
  indices : ∀ p i, f.order[p]? = some i → ∀ v, f.addressed f.computeGEPMaterialize i = some v → ∀ reads,
    ptrValueReads f.toBody v = .ok reads → ∀ x ∈ reads, f.constantIndex v = some x → Covered f x p

section Intervals

variable {f : Function} {scanned parameters intervals : List LiveInterval}
variable {p v : Nat}
variable {a : LiveInterval}

theorem contains_between {q q' : Nat} (hQ : a.contains q) (hQ' : a.contains q') (hLe : q ≤ p) (hLe' : p ≤ q') :
    a.contains p := by
  obtain ⟨first, last, hRange, hFirst, -⟩ := hQ
  obtain ⟨first', last', hRange', -, hLast⟩ := hQ'
  obtain ⟨rfl, rfl⟩ := Prod.mk.inj (Option.some.inj (hRange.symm.trans hRange'))
  exact ⟨first, last, hRange, hFirst.trans hLe, hLe'.trans hLast⟩

theorem IsOperand.lt (hResolved : f.Resolved) (h : IsOperand f v) : v < f.instrs.length := by
  obtain ⟨i, hLt, operand, hOperand, hVariable, rfl⟩ := h.exists
  exact hResolved i hLt operand hOperand hVariable

theorem IsOperand.not_isStore (h : IsOperand f v) : (f.opcode v).isStore = false := by
  rw [Bool.eq_false_iff]
  intro hStore
  exact absurd ((isUnnamed_of_isStore hStore).symm.trans h.named) (by simp)

/-- The interval of an operand belongs to the operand. -/
theorem Computed.of_spans (h : Computed f scanned parameters intervals) (hLt : v < f.instrs.length)
    (hOperand : IsOperand f v) (hSpans : Spans f v p) :
    ∃ a ∈ intervals, (∃ t, a.owner = .virtual v t) ∧ a.contains p := by
  obtain ⟨⟨q, hLe, hTouched⟩, q', hLe', hTouched'⟩ := hSpans
  obtain ⟨a, hMem, hGet, hContains⟩ := h.mem_of_touched hLt hOperand.not_isStore hTouched
  obtain ⟨a', -, hGet', hContains'⟩ := h.mem_of_touched hLt hOperand.not_isStore hTouched'
  obtain rfl := Option.some.inj (hGet.symm.trans hGet')
  refine ⟨a, hMem, ?_, contains_between hContains hContains' hLe hLe'⟩
  obtain ⟨first, last, hRange, -⟩ := hContains
  have hValue := valueInterval_of_final h.exactScan hGet (by rw [LiveInterval.undef, hRange]; rfl)
  cases hValue with
  | plain hOwner => exact ⟨_, hOwner⟩
  | store _ hStore => exact absurd (hStore.symm.trans hOperand.not_isStore) (by simp)
  | argument hArgument =>
    have hNamed := hOperand.named
    rw [hArgument.opcode] at hNamed
    exact absurd hNamed (by simp [Opcode.isUnnamed])

/-- A store has the interval of its position. -/
theorem Computed.of_store (h : Computed f scanned parameters intervals) (hOrder : f.order[p]? = some v)
    (hStore : (f.opcode v).isStore = true) : ∃ a ∈ intervals, (∃ t, a.owner = .virtual v t) ∧ a.contains p := by
  obtain ⟨a, hGet, hRange, hOwner⟩ := extendStores_store h.exactScan hOrder hStore
  refine ⟨a, ?_, ⟨_, hOwner⟩, p, p, hRange, le_rfl, le_rfl⟩
  have hNotArg : f.opcode v ≠ .callArg := by
    intro hArg
    rw [hArg] at hStore
    exact absurd hStore (by simp [Opcode.isStore])
  have hFinal : (addClobbers f (extendStores f scanned)).intervals[v]? = some a := by
    rw [(addClobbers_spec f _).intervals v, hGet, Option.map_some, if_neg fun h => hNotArg h.2]
  rw [h.filtered, mem_filter]
  refine ⟨mem_append_left _ (mem_append_left _ (mem_of_getElem? hFinal)), ?_⟩
  rw [LiveInterval.undef, hRange]
  rfl

/-- The interval of a value comes from places where the value is live, or is that of a store. -/
theorem Computed.covered (h : Computed f scanned parameters intervals) (hMem : a ∈ intervals) {t : TypeKind}
    (hOwner : a.owner = .virtual v t) (hContains : a.contains p) : Covered f v p := by
  obtain ⟨first, last, hRange, hFirst, hLast⟩ := hContains
  cases hKind : (f.opcode v).isStore with
  | false =>
    obtain ⟨-, hTouched, hTouched'⟩ := (h.hull hMem hOwner hKind).ends first last hRange
    exact Or.inl ⟨⟨first, hFirst, hTouched⟩, last, hLast, hTouched'⟩
  | true =>
    cases (h.value hMem hOwner).1 with
    | plain _ hNot => exact absurd (hKind.symm.trans hNot) (by simp)
    | store hPlace =>
      obtain ⟨rfl, rfl⟩ := Prod.mk.inj (Option.some.inj hRange)
      obtain rfl := le_antisymm hFirst hLast
      exact Or.inr ⟨hPlace, hKind⟩
    | argument => exact absurd hOwner (by simp)

end Intervals

section Exact

variable {f : Function} {scanned parameters intervals : List LiveInterval}
variable {i p v b first k : Nat}

theorem isOperand_of_spans (hSpans : Spans f v p) (hOrder : f.order[p]? = some i)
    (hContinues : (f.opcode i).continuesCall = false) : IsOperand f v := by
  obtain ⟨⟨q, hLe, hTouched⟩, q', hLe', hTouched'⟩ := hSpans
  rcases touched_operand hTouched with hOperand | ⟨hArg, s, hPlace, hUpTo⟩
  · exact hOperand
  rcases touched_operand hTouched' with hOperand | ⟨-, s', hPlace', hUpTo'⟩
  · exact hOperand
  -- an argument is live inside its run only, and all of the run continues a call
  obtain rfl := order_inj hPlace hPlace'
  obtain ⟨w, hEnd, hCall⟩ := (hUpTo'.mono (hUpTo.1.trans hLe) hLe').order_isSome hPlace hArg
  obtain rfl := Option.some.inj (hEnd.symm.trans hOrder)
  exact absurd (hCall.symm.trans hContinues) (by simp)

theorem spans_of_touched (h : Touched f v p) : Spans f v p :=
  ⟨⟨p, le_rfl, h⟩, p, le_rfl, h⟩

theorem StrayRead.covered (hLive : StrayReadsLive f) (hReadable : Readable f) {x : Nat}
    (hAt : StandsAt f b k first i) (h : StrayRead f first i x) : Covered f x (f.base b + k) := by
  have hOrder := hAt.order
  cases h with
  | argument hCall hMem =>
    obtain ⟨j, hBefore, hIn⟩ := mem_reads_gathered.mp hMem
    obtain ⟨hFirst, hLt, hArgs⟩ := mem_callArgsBefore.mp hBefore
    obtain ⟨hBound, hStart⟩ := hAt.before hFirst hLt.le
    have hUpTo := argsUpTo_of_mem hAt hBefore
    refine Or.inl ⟨⟨_, hUpTo.1, ?_⟩, hLive.arguments _ i hOrder hCall _ j hStart.order (by omega) hUpTo x hIn⟩
    obtain ⟨listed, hListed⟩ := hReadable b hAt.block _ (mem_of_getElem? hStart.point)
    refine touched_of_read hStart hListed ?_
    rw [readsAt, getReadValues] at hListed
    dsimp only at hListed
    rw [show (f.instr j).opcode = .callArg from hArgs j le_rfl hLt] at hListed
    exact materialized_ok hListed ▸ hIn
  | access hAccess hGep hOwn hReads hMem => exact hLive.accesses _ i hOrder _ hAccess hGep hOwn _ hReads x hMem
  | constant hLooksUp hConstant hIdx => exact hIdx ▸ hLive.constants _ i hOrder hLooksUp hConstant
  | index hAddress hIndex hReads hMem => exact hLive.indices _ i hOrder _ hAddress _ hReads x hMem hIndex

variable {reads : List Nat}

theorem emitted_live (hResolved : f.Resolved) (hLive : StrayReadsLive f) (hReadable : Readable f)
    (hComputed : Computed f scanned parameters intervals) (hAt : StandsAt f b k first i)
    (hReads : emittedReads f.toBody f.computeGEPMaterialize (gathered f.toBody first i) i = .ok reads)
    (hMem : v ∈ reads) : ∃ a ∈ intervals, (∃ t, a.owner = .virtual v t) ∧ a.contains (f.base b + k) := by
  obtain ⟨listed, hListed⟩ := hReadable b hAt.block _ (mem_of_getElem? hAt.point)
  have hCovered : Covered f v (f.base b + k) := by
    rcases emitted_listed hListed hReads hMem with hIn | hStray
    · exact Or.inl (spans_of_touched (touched_of_read hAt hListed hIn))
    · exact hStray.covered hLive hReadable hAt
  rcases hCovered with hSpans | ⟨hPlace, hStore⟩
  · have hOperand : IsOperand f v := by
      by_cases hCall : (f.opcode i).isCall = true
      · obtain ⟨all, hAll, -, hOnly⟩ := exists_emittedReads_of_call (gathered f.toBody first i) hCall
        obtain rfl := Except.ok.inj (hAll.symm.trans hReads)
        exact (hOnly v hMem).elim isOperand_of_gathered id
      · refine isOperand_of_spans hSpans hAt.order ?_
        by_cases hArg : f.opcode i = .callArg
        · rw [emittedReads_of_callArg hArg] at hReads
          exact absurd hMem (Except.ok.inj hReads ▸ not_mem_nil)
        · revert hCall hArg
          cases f.opcode i <;> simp [Opcode.isCall, Opcode.continuesCall]
    exact hComputed.of_spans (hOperand.lt hResolved) hOperand hSpans
  · exact hComputed.of_store hPlace hStore

theorem emitsLiveReads_of (hResolved : f.Resolved) (h : Readable f → ParametersFit f → StrayReadsLive f) :
    EmitsLiveReads f := by
  intro rounds intervals hOutput emitted hEmitted b hBlock k i hCode reads hReads v hMem
  have hReadable := readable_of_intervals hOutput
  obtain ⟨scanned, parameters, hComputed⟩ := computed_of_intervals hOutput
  obtain ⟨first, hPoint⟩ := BasicBlock.code_getElem?.mp hCode
  rw [pendingAt_eq hEmitted ⟨hBlock, hPoint⟩] at hReads
  rw [f.wellFormed.position_eq hBlock hCode]
  exact emitted_live hResolved (h hReadable (parametersFit_of_intervals hOutput)) hReadable hComputed
    ⟨hBlock, hPoint⟩ hReads hMem

theorem EmitsLiveReads.covered (h : EmitsLiveReads f) (hReadable : Readable f) (hFit : ParametersFit f)
    (hAt : StandsAt f b k first i)
    (hReads : emittedReads f.toBody f.computeGEPMaterialize (gathered f.toBody first i) i = .ok reads)
    (hMem : v ∈ reads) : Covered f v (f.base b + k) := by
  obtain ⟨enough, hEnough⟩ := computed_run hReadable hFit
  obtain ⟨scanned, parameters, intervals, hOutput, hComputed⟩ := hEnough (enough + 1) (Nat.lt_succ_self _)
  obtain ⟨a, hIn, ⟨t, hOwner⟩, hContains⟩ := h _ intervals hOutput [] (by simp) b hAt.block k i hAt.code reads
    (by rwa [pendingAt_eq (by simp) hAt]) v hMem
  rw [hAt.position] at hContains
  exact hComputed.covered hIn hOwner hContains

theorem strayReadsLive_of (h : EmitsLiveReads f) (hReadable : Readable f) (hFit : ParametersFit f) :
    StrayReadsLive f where
  arguments c i hOrder hCall s j hPlace hLt hUpTo x hIn := by
    obtain ⟨b, k, first, rfl, hAt, hBefore⟩ := hUpTo.mem_callArgsBefore hPlace hLt hOrder
    have hMem := mem_reads_gathered.mpr ⟨j, hBefore, hIn⟩
    obtain ⟨all, hAll, hPending, -⟩ := exists_emittedReads_of_call (gathered f.toBody first i) hCall
    rcases h.covered hReadable hFit hAt hAll (hPending x hMem) with hSpans | ⟨-, hStore⟩
    · exact hSpans.2
    · exact absurd (hStore.symm.trans (isOperand_of_gathered hMem).not_isStore) (by simp)
  accesses p i hOrder v hAccess _ _ reads hReads x hMem := by
    obtain ⟨b, k, first, rfl, hAt⟩ := exists_standsAt hOrder
    obtain ⟨all, hAll, hPart⟩ :=
      exists_emittedReads_of_accessed (gathered f.toBody first i) hAccess hReads
    exact h.covered hReadable hFit hAt hAll (hPart x hMem)
  constants p i hOrder hLooksUp _ := by
    obtain ⟨b, k, first, rfl, hAt⟩ := exists_standsAt hOrder
    exact h.covered hReadable hFit hAt (emittedReads_of_looksUp hLooksUp) mem_cons_self
  indices p i hOrder v hAddress reads hReads x hMem _ := by
    obtain ⟨b, k, first, rfl, hAt⟩ := exists_standsAt hOrder
    obtain ⟨all, hAll, hPart⟩ :=
      exists_emittedReads_of_addressed (gathered f.toBody first i) hAddress hReads
    exact h.covered hReadable hFit hAt hAll (hPart x hMem)

/-- The emitter reads live values only exactly if its reads that are not listed fall into the intervals as well. -/
theorem emitsLiveReads_iff (f : Function) (hResolved : f.Resolved) :
    EmitsLiveReads f ↔ (Readable f → ParametersFit f → StrayReadsLive f) :=
  ⟨strayReadsLive_of, emitsLiveReads_of hResolved⟩

/-- What is live in a function of one block is read by a later instruction. -/
theorem Touched.exists_read (hTouched : Touched f v p) (hBlocks : f.basicBlocks.length = 1)
    (hLast : (f.block 0).successors = []) : ∃ q ≥ p, ∃ point, (f.block 0).points[q]? = some point ∧
      v ∈ readValues f point := by
  obtain ⟨b, hBlock, k, hLive, ⟨first, i⟩, hPoint, rfl⟩ := hTouched
  obtain rfl : b = 0 := by omega
  obtain ⟨q, hLe, step, hStep, hRead⟩ := hLive.exists_read hLast
  obtain ⟨first', i', hAt, rfl⟩ := steps_getElem? hStep
  refine ⟨q, ?_, (first', i'), hAt, hRead⟩
  have hBase : f.base 0 = 0 := rfl
  rcases hPoint with hPoint | ⟨hPos, hPoint⟩ <;> rw [StandsAt.position ⟨hBlock, hPoint⟩] <;> omega

theorem readable_of_isOk (h : ∀ b < f.basicBlocks.length, ∀ point ∈ (f.block b).points,
    (readsAt f point).isOk = true) : Readable f := by
  intro b hBlock point hMem
  have hOk := h b hBlock point hMem
  cases hReads : readsAt f point with
  | ok reads => exact ⟨reads, rfl⟩
  | error message =>
    rw [hReads] at hOk
    exact absurd hOk (by simp [Except.isOk, Except.toBool])

/-- A pointer into the parameter is passed to a function and then loaded through. -/
def passThenLoad : Function where
  instrs := [{ opcode := .funcArg, typeId := .pointer },
    { opcode := .gepStaticOffset, arg0 := ⟨0, false⟩, arg1 := ⟨0, true⟩ },
    { opcode := .gepStatic, typeId := .pointer },
    { opcode := .callArg, arg := ⟨2, false⟩, typeId := .pointer }, { opcode := .call },
    { opcode := .i64Load, arg0 := ⟨2, false⟩ }, { opcode := .returnValue, arg := ⟨5, false⟩ }]
  basicBlocks := [⟨[(0, 6)], [], []⟩]
  wellFormed := by decide

/-- The load recomputes the address from the parameter, which is dead since the pointer was computed. -/
theorem passThenLoad_reads_dead : ¬ EmitsLiveReads passThenLoad ∧
    emittedReads passThenLoad.toBody passThenLoad.computeGEPMaterialize {} 5 = .ok [0] ∧
    readsAt passThenLoad (0, 5) = .ok [2] := by
  refine ⟨fun h => ?_, by decide, by decide⟩
  have hReadable : Readable passThenLoad := readable_of_isOk (by decide)
  have hFit : ParametersFit passThenLoad := ⟨by decide, by decide, by decide⟩
  have hLive := strayReadsLive_of h hReadable hFit
  have hCovered := hLive.accesses 5 5 (by decide) ⟨2, false⟩ (by decide) (by decide) (by decide) [0] (by decide) 0
    (by decide)
  obtain ⟨-, q, hLe, hTouched⟩ := hCovered.resolve_right fun h => absurd h.2 (by decide)
  obtain ⟨q', hLe', point, hPoint, hRead⟩ := hTouched.exists_read rfl rfl
  have hNone : ∀ j, 5 ≤ j → ∀ point, (passThenLoad.block 0).points[j]? = some point →
      0 ∉ readValues passThenLoad point := by
    intro j hJ point hPoint
    obtain ⟨hLt, -⟩ := List.getElem?_eq_some_iff.mp hPoint
    have hLength : (passThenLoad.block 0).points.length = 7 := rfl
    have hCases : j = 5 ∨ j = 6 := by omega
    rcases hCases with rfl | rfl
    · obtain rfl := Option.some.inj hPoint
      decide
    · obtain rfl := Option.some.inj hPoint
      decide
  exact hNone q' (by omega) point hPoint hRead

/-- The same with the parameter returned in the end, which keeps it live up to the load. -/
def passThenReturn : Function where
  instrs := passThenLoad.instrs.take 6 ++ [{ opcode := .returnValue, arg := ⟨0, false⟩ }]
  basicBlocks := passThenLoad.basicBlocks
  wellFormed := by decide

theorem passThenReturn_order (hOrder : passThenReturn.order[p]? = some i) : p < 7 ∧ i = p := by
  have hRange : passThenReturn.order = range 7 := by decide
  rw [hRange] at hOrder
  obtain ⟨hLt, hEq⟩ := List.getElem?_eq_some_iff.mp hOrder
  exact ⟨by simpa using hLt, by simpa using hEq.symm⟩

theorem passThenReturn_strayReadsLive : StrayReadsLive passThenReturn where
  arguments c i hOrder hCall s j hPlace hLt hUpTo x hIn := by
    obtain ⟨hC, rfl⟩ := passThenReturn_order hOrder
    obtain ⟨hS, rfl⟩ := passThenReturn_order hPlace
    have hOnly : ∀ c < 7, (passThenReturn.opcode c).isCall = true → c = 4 := by decide
    obtain rfl := hOnly i hC hCall
    obtain ⟨w, hAt, hArg⟩ := hUpTo.2 j le_rfl hLt
    obtain ⟨-, rfl⟩ := passThenReturn_order hAt
    have hBefore : ∀ s < 7, passThenReturn.opcode s = .callArg → s = 3 := by decide
    obtain rfl := hBefore w hS hArg
    obtain rfl : x = 2 := mem_singleton.mp hIn
    -- the pointer that is passed is read by the load
    exact ⟨5, by decide, @touched_of_read passThenReturn 0 5 0 5 2 [2] ⟨by decide, rfl⟩ (by decide) (by decide)⟩
  accesses p i hOrder v hAccess _ _ reads hReads x hMem := by
    obtain ⟨hP, rfl⟩ := passThenReturn_order hOrder
    have hOnly : ∀ p < 7, passThenReturn.accessed p ≠ none → p = 5 := by decide
    obtain rfl := hOnly i hP (by simp [hAccess])
    obtain rfl : ⟨2, false⟩ = v := Option.some.inj hAccess
    have hAddress : ptrValueReads passThenReturn.toBody ⟨2, false⟩ = .ok [0] := by decide
    obtain rfl := Except.ok.inj (hAddress.symm.trans hReads)
    obtain rfl := mem_singleton.mp hMem
    exact Or.inl ⟨⟨2, by decide, @touched_of_read passThenReturn 0 2 0 2 0 [0] ⟨by decide, rfl⟩ (by decide) (by decide)⟩,
      6, by decide, @touched_of_read passThenReturn 0 6 0 6 0 [0] ⟨by decide, rfl⟩ (by decide) (by decide)⟩
  constants p i hOrder hLooksUp _ := by
    obtain ⟨hP, rfl⟩ := passThenReturn_order hOrder
    have hNone : ∀ p < 7, passThenReturn.looksUp p = false := by decide
    exact absurd (hLooksUp.symm.trans (hNone i hP)) (by simp)
  indices p i hOrder v hAddress _ _ x _ hIndex := by
    obtain ⟨hP, rfl⟩ := passThenReturn_order hOrder
    have hNone : ∀ p < 7, ∀ v ∈ passThenReturn.addressed passThenReturn.computeGEPMaterialize p,
        passThenReturn.constantIndex v = none := by decide
    exact absurd (hIndex.symm.trans (hNone i hP v hAddress)) (by simp)

theorem passThenReturn_emitsLiveReads : passThenReturn.Resolved ∧ Readable passThenReturn ∧
    ParametersFit passThenReturn ∧ EmitsLiveReads passThenReturn :=
  ⟨by decide, readable_of_isOk (by decide), ⟨by decide, by decide, by decide⟩,
    (emitsLiveReads_iff passThenReturn (by decide)).mpr fun _ _ => passThenReturn_strayReadsLive⟩

end Exact

end KushDB.Khir
