import KushDB.Khir.Reservations

/-! # The computed intervals form a schedule

The intervals of a function are those of its values, those of its parameters and what its calls overwrite. Any two of
them are apart, so the allocator can handle them in every order that sorts them by their starts.
-/

namespace KushDB.Khir

open Liveness RegisterPool List

section Pieces

variable {f : Function}
variable {a : LiveInterval}

theorem LiveInterval.eta {range : Option (Nat × Nat)} {owner : Owner} (hRange : a.range = range)
    (hOwner : a.owner = owner) : a = ⟨range, owner⟩ := by
  cases a
  subst hRange hOwner
  rfl

variable {v i r c : Nat}

/-- An argument whose interval is not empty stands somewhere, and the interval goes from there to its call. -/
theorem callArg_hull {first last : Nat} (hHull : a.Hull (Touched f v)) (hRange : a.range = some (first, last))
    (hArg : f.opcode v = .callArg) : ∃ s, f.order[s]? = some v ∧ s ≤ first ∧ first ≤ last ∧ ArgsUpTo f s last := by
  obtain ⟨hLe, hFirst, hLast⟩ := hHull.ends first last hRange
  have hUnnamed : (f.opcode v).isUnnamed = true := by rw [hArg]; rfl
  have hNamed : ∀ {p}, Touched f v p → ∃ s, f.order[s]? = some v ∧ ArgsUpTo f s p := by
    intro p hTouched
    rcases touched_operand hTouched with hOperand | ⟨-, hSome⟩
    · exact absurd (hUnnamed.symm.trans hOperand.named) (by simp)
    · exact hSome
  obtain ⟨s, hOrder, hUpTo⟩ := hNamed hFirst
  obtain ⟨s', hOrder', hUpTo'⟩ := hNamed hLast
  obtain rfl := order_inj hOrder hOrder'
  exact ⟨s, hOrder, hUpTo.1, hLe, hUpTo'⟩

theorem valueInterval_of_final {scanned : List LiveInterval} (hExact : ExactIntervals f scanned)
    (hGet : (addClobbers f (extendStores f scanned)).intervals[v]? = some a) (hDefined : a.undef = false) :
    ValueInterval f v a := by
  have hStores := extendStores_spec hExact
  rw [(addClobbers_spec f _).intervals v] at hGet
  obtain ⟨old, hOld, hNew⟩ := Option.map_eq_some_iff.mp hGet
  cases hStore : (f.opcode v).isStore with
  | true =>
    have hNotArg : f.opcode v ≠ .callArg := by
      intro hArg
      rw [hArg] at hStore
      exact absurd hStore (by simp [Opcode.isStore])
    rw [if_neg fun h => hNotArg h.2] at hNew
    obtain rfl := hNew
    obtain ⟨hOwner, hNone | ⟨p, hOrder, hRange⟩⟩ := hStores.stores v hStore old hOld
    · rw [LiveInterval.undef, hNone] at hDefined
      exact absurd hDefined (by simp)
    · rw [LiveInterval.eta hRange hOwner]
      exact ValueInterval.store hOrder hStore
  | false =>
    rw [hStores.others v hStore] at hOld
    obtain ⟨hLt, -⟩ := List.getElem?_eq_some_iff.mp hOld
    obtain ⟨other, hOther, hOwner, hHull⟩ := hExact.2 v (hExact.1 ▸ hLt)
    obtain rfl := Option.some.inj (hOther.symm.trans hOld)
    split at hNew
    case isFalse =>
      obtain rfl := hNew
      exact ValueInterval.plain hOwner hStore
    case isTrue hArg =>
      rw [coloured] at hNew
      split at hNew
      case h_2 =>
        obtain rfl := hNew
        exact ValueInterval.plain hOwner hStore
      case h_1 register hRegister =>
        obtain rfl := hNew
        cases hRange : other.range with
        | none =>
          rw [LiveInterval.undef, LiveInterval.changeToPrecolored, hRange] at hDefined
          exact absurd hDefined (by simp)
        | some range =>
          obtain ⟨first, last⟩ := range
          obtain ⟨s, hOrder, hFirst, hLe, hUpTo⟩ := callArg_hull hHull hRange hArg.2
          rw [order_idxOf hOrder] at hRegister
          rw [LiveInterval.changeToPrecolored, hRange]
          exact ValueInterval.argument ⟨hOrder, hArg.2, hRegister, hFirst, hLe, hUpTo⟩

theorem opcode_of_leading (hLt : i < (leadingParameters f.instrs).length) :
    i < f.instrs.length ∧ f.opcode i = .funcArg := by
  have hLength := hLt.trans_le (takeWhile_sublist _).length_le
  have hGet : (leadingParameters f.instrs)[i] = f.instrs[i] :=
    ( takeWhile_prefix _).getElem hLt
  have hAll := all_eq_true.mp all_takeWhile _ (getElem_mem hLt)
  refine ⟨hLength, ?_⟩
  rw [Body.opcode, Body.instr, getD_eq_getElem _ _ hLength, ← hGet]
  simpa using hAll

theorem parameter_only (hLt : i < (leadingParameters f.instrs).length) (hPlace : (0, i) ∈ f.places) :
    CoversOnly f Opcode.isFuncArg (parameterInterval f i r) := by
  obtain ⟨hLength, hParameter⟩ := opcode_of_leading hLt
  obtain ⟨p, hAll⟩ := order_parameters hParameter hPlace
  have hFirst := (hAll 0 (Nat.zero_le i)).1
  have hLast := (hAll i le_rfl).1
  refine ⟨p, p + i, ?_, Nat.le_add_right p i, fun q hQ hQ' => ?_⟩
  · rw [parameterInterval, hFirst, hLast, Nat.add_zero, min_eq_left (Nat.le_add_right p i),
      max_eq_right (Nat.le_add_right p i)]
  · obtain ⟨j, rfl⟩ := Nat.exists_eq_add_of_le hQ
    refine ⟨j, (hAll j (by omega)).2, decide_eq_true ?_⟩
    rcases Nat.eq_or_lt_of_le (Nat.le_of_add_le_add_left hQ') with rfl | hJ
    · exact hParameter
    · exact f.wellFormed.funcArgs i hLength hParameter j hJ

theorem mem_clobbersAt (hMem : a ∈ clobbersAt f c) :
    (∃ i, f.order[c]? = some i ∧ (f.opcode i).isCall = true) ∧
      ∃ r ∈ clobberedAfter (f.callRun c), a = ⟨some (c, c), .precolored r⟩ := by
  rw [clobbersAt] at hMem
  split at hMem
  case isFalse => exact absurd hMem not_mem_nil
  case isTrue hCall =>
    obtain ⟨r, hR, rfl⟩ := mem_map.mp hMem
    exact ⟨(Option.any_eq_true _ _).mp hCall, r, hR, rfl⟩

theorem continuesCall_of_isCall {opcode : Opcode} (hCall : opcode.isCall = true) : opcode.continuesCall = true := by
  rcases isCall_iff.mp hCall with rfl | rfl <;> rfl

theorem clobber_only (hMem : a ∈ clobbersAt f c) : CoversOnly f Opcode.continuesCall a := by
  obtain ⟨⟨i, hOrder, hCall⟩, r, -, rfl⟩ := mem_clobbersAt hMem
  refine ⟨c, c, rfl, le_rfl, fun q hQ hQ' => ⟨i, ?_, continuesCall_of_isCall hCall⟩⟩
  rw [show q = c by omega, hOrder]

theorem reserved_nodup (n : Nat) : (normalArgReg ++ (fpArgReg ++ normalCallerSave ++ fpCallerSave)).Nodup ∧
    (clobberedAfter n).Nodup := by
  have hAll : (normalArgReg ++ (fpArgReg ++ normalCallerSave ++ fpCallerSave)).Nodup := by decide
  refine ⟨hAll, ?_⟩
  rw [clobberedAfter, append_assoc, append_assoc, ← append_assoc fpArgReg]
  exact hAll.sublist ((drop_sublist _ _).append (List.Sublist.refl _))

/-- The register of an argument before the call is not among those the call still overwrites. -/
theorem not_mem_clobberedAfter {j n : Nat} (hJ : normalArgReg[j]? = some r) (hLt : j < n) : r ∉ clobberedAfter n := by
  rw [clobberedAfter, append_assoc, append_assoc, ← append_assoc fpArgReg, mem_append, not_or]
  constructor
  · intro hMem
    obtain ⟨k, hK⟩ := mem_iff_getElem?.mp hMem
    rw [getElem?_drop] at hK
    have := normalArgReg_inj hJ hK
    omega
  · exact disjoint_of_nodup_append (reserved_nodup n).1 (mem_of_getElem? hJ)

end Pieces

section Cross

variable {f : Function} {v c : Nat} {a b : LiveInterval}

theorem clobber_precolored (hMem : a ∈ clobbersAt f c) : a.IsPrecolored := by
  obtain ⟨-, r, -, rfl⟩ := mem_clobbersAt hMem
  exact ⟨r, rfl⟩

theorem not_isStore_of_precolored (h : a.IsPrecolored) : ¬ a.IsStore f := by
  rintro ⟨w, t, hOwner, -⟩
  obtain ⟨r, hPrecolored⟩ := h
  exact absurd (hOwner.symm.trans hPrecolored) (by simp)

/-- Against a reserved interval only registers and stores matter. -/
theorem apart_of_precolored (hB : b.IsPrecolored) (hFixed : ∀ r, a.owner = .precolored r → b.owner = .precolored r →
    ¬ a.Meets b) (hStore : a.IsStore f → ¬ a.Meets b) : Apart f a b where
  values w t t' _ hOwner := by
    obtain ⟨r, hPrecolored⟩ := hB
    exact absurd (hOwner.symm.trans hPrecolored) (by simp)
  fixed := hFixed
  stores hStores := by
    rcases hStores with ⟨hA, -⟩ | ⟨-, hIs⟩
    · exact hStore hA
    · exact absurd hIs (not_isStore_of_precolored hB)

theorem ValueInterval.apart_clobber (h : ValueInterval f v a) (hMem : b ∈ clobbersAt f c) : Apart f a b := by
  refine apart_of_precolored (clobber_precolored hMem) ?_ fun hStore =>
    not_meets_of_sorts (h.store_only hStore) (clobber_only hMem) isStore_disjoint_call
  intro r hOwner hOther hMeets
  obtain ⟨s, first, last, hRange, hArgument⟩ := h.precolored hOwner
  obtain ⟨⟨i, hOrder, hCall⟩, r', hR', rfl⟩ := mem_clobbersAt hMem
  obtain rfl := Owner.precolored.inj hOther
  obtain ⟨q, hQ, hQ', hQ'', hQ'''⟩ := hMeets.exists hRange rfl hArgument.proper le_rfl
  obtain rfl : q = c := by omega
  have hUpTo := hArgument.upTo.mono (hArgument.after.trans hQ) hQ'
  have hNe : s ≠ q := by
    rintro rfl
    obtain rfl := Option.some.inj (hArgument.order.symm.trans hOrder)
    rw [hArgument.opcode] at hCall
    exact absurd hCall (by simp [Opcode.isCall])
  have hRun := hUpTo.callRun
  have hLe := hUpTo.1
  exact not_mem_clobberedAfter hArgument.register (by omega) hR'

variable {i r : Nat}

theorem ValueInterval.apart_parameter (h : ValueInterval f v a) (hLt : i < (leadingParameters f.instrs).length)
    (hPlace : (0, i) ∈ f.places) : Apart f a (parameterInterval f i r) := by
  refine apart_of_precolored ⟨r, rfl⟩ ?_ fun hStore =>
    not_meets_of_sorts (h.store_only hStore) (parameter_only hLt hPlace) isStore_disjoint_parameter
  intro r' hOwner _
  exact not_meets_of_sorts (h.precolored_only ⟨r', hOwner⟩) (parameter_only hLt hPlace) call_disjoint_parameter

theorem parameter_apart_clobber (hLt : i < (leadingParameters f.instrs).length) (hPlace : (0, i) ∈ f.places)
    (hMem : b ∈ clobbersAt f c) : Apart f (parameterInterval f i r) b := by
  refine apart_of_precolored (clobber_precolored hMem) (fun _ _ _ hMeets => ?_)
    fun hStore => absurd hStore (not_isStore_of_precolored ⟨r, rfl⟩)
  exact not_meets_of_sorts (clobber_only hMem) (parameter_only hLt hPlace) call_disjoint_parameter hMeets.symm

theorem parameters_apart {j r' : Nat} (hNe : (parameterInterval f i r).owner ≠ (parameterInterval f j r').owner) :
    Apart f (parameterInterval f i r) (parameterInterval f j r') := by
  refine apart_of_precolored ⟨r', rfl⟩ (fun _ hOwner hOther => absurd (hOwner.trans hOther.symm) hNe) ?_
  exact fun hStore => absurd hStore (not_isStore_of_precolored ⟨r, rfl⟩)

theorem clobbers_pairwise (f : Function) (n : Nat) :
    ((List.range n).flatMap (clobbersAt f)).Pairwise (Apart f) := by
  rw [pairwise_flatMap]
  constructor
  · intro c _
    rw [clobbersAt]
    split
    case isFalse => exact List.Pairwise.nil
    case isTrue =>
      rw [pairwise_map]
      refine (reserved_nodup (f.callRun c)).2.imp fun {r r'} hNe => ?_
      refine apart_of_precolored ⟨r', rfl⟩ (fun _ hOwner hOther => ?_)
        fun hStore => absurd hStore (not_isStore_of_precolored ⟨r, rfl⟩)
      exact absurd (Owner.precolored.inj (hOwner.trans hOther.symm)) hNe
  · refine pairwise_lt_range.imp fun {c d} hLt a hA b hB => ?_
    refine apart_of_precolored (clobber_precolored hB) (fun _ _ _ hMeets => ?_)
      fun hStore => absurd hStore (not_isStore_of_precolored (clobber_precolored hA))
    obtain ⟨-, r, -, rfl⟩ := mem_clobbersAt hA
    obtain ⟨-, r', -, rfl⟩ := mem_clobbersAt hB
    obtain ⟨q, hQ, hQ', hQ'', hQ'''⟩ := hMeets.exists rfl rfl le_rfl le_rfl
    omega

end Cross

section Whole

variable {f : Function}

/-- Every interval the allocator is given, with where it comes from. -/
structure Computed (f : Function) (scanned parameters output : List LiveInterval) : Prop where
  exactScan : ExactIntervals f scanned
  taken : funcArgIntervals f f.instrs 0 0 0 = .ok parameters
  filtered : output = ((addClobbers f (extendStores f scanned)).intervals ++ parameters ++
    (addClobbers f (extendStores f scanned)).fixed).filter fun interval => !interval.undef

variable {output parameters scanned : List LiveInterval}

theorem Computed.pairwise (h : Computed f scanned parameters output) : output.Pairwise (Apart f) := by
  obtain ⟨hAll, hOwners⟩ := funcArgIntervals_spec f.instrs h.taken
  have hFixed := (addClobbers_spec f (extendStores f scanned)).fixed
  rw [h.filtered, pairwise_filter, pairwise_append, pairwise_append]
  refine ⟨⟨?_, ?_, ?_⟩, ?_, ?_⟩
  · rw [pairwise_iff_getElem]
    intro v w hV hW hLt hA hB
    exact (valueInterval_of_final h.exactScan (getElem?_eq_getElem hV) (by simpa using hA)).apart
      (valueInterval_of_final h.exactScan (getElem?_eq_getElem hW) (by simpa using hB)) (Nat.ne_of_lt hLt)
  · refine hOwners.imp_of_mem fun {a b} hA hB hNe _ _ => ?_
    obtain ⟨i, -, -, r, -, rfl⟩ := hAll a hA
    obtain ⟨j, -, -, r', -, rfl⟩ := hAll b hB
    exact parameters_apart hNe
  · intro a hA b hB hDefined _
    obtain ⟨v, hGet⟩ := mem_iff_getElem?.mp hA
    obtain ⟨i, hLt, hPlace, r, -, rfl⟩ := hAll b hB
    rw [Nat.zero_add] at hPlace ⊢
    exact (valueInterval_of_final h.exactScan hGet (by simpa using hDefined)).apart_parameter hLt hPlace
  · rw [hFixed]
    exact (clobbers_pairwise f _).imp fun hApart _ _ => hApart
  · intro a hA b hB hDefined _
    rw [hFixed] at hB
    obtain ⟨c, -, hClobber⟩ := mem_flatMap.mp hB
    rcases mem_append.mp hA with hA | hA
    · obtain ⟨v, hGet⟩ := mem_iff_getElem?.mp hA
      exact (valueInterval_of_final h.exactScan hGet (by simpa using hDefined)).apart_clobber hClobber
    · obtain ⟨i, hLt, hPlace, r, -, rfl⟩ := hAll a hA
      rw [Nat.zero_add] at hPlace ⊢
      exact parameter_apart_clobber hLt hPlace hClobber

variable {r : Nat} {a : LiveInterval}

theorem reserved_mem_pools (h : r ∈ normalArgReg ++ (fpArgReg ++ normalCallerSave ++ fpCallerSave)) :
    r ∈ normalPool ∪ vectorPool := by
  revert r
  decide

theorem Computed.cases (h : Computed f scanned parameters output) (hMem : a ∈ output) :
    (∃ v, ValueInterval f v a ∧
        (addClobbers f (extendStores f scanned)).intervals[v]? = some a) ∨
      (∃ i < (leadingParameters f.instrs).length, (0, i) ∈ f.places ∧ ∃ r ∈ normalArgReg ++ fpArgReg,
        a = parameterInterval f i r) ∨ ∃ c, a ∈ clobbersAt f c := by
  rw [h.filtered] at hMem
  obtain ⟨hMem, hDefined⟩ := mem_filter.mp hMem
  rcases mem_append.mp hMem with hMem | hMem
  · rcases mem_append.mp hMem with hMem | hMem
    · obtain ⟨v, hGet⟩ := mem_iff_getElem?.mp hMem
      exact Or.inl ⟨v, valueInterval_of_final h.exactScan hGet (by simpa using hDefined), hGet⟩
    · obtain ⟨i, hLt, hPlace, r, hR, rfl⟩ := (funcArgIntervals_spec f.instrs h.taken).1 a hMem
      rw [Nat.zero_add] at hPlace ⊢
      exact Or.inr (Or.inl ⟨i, hLt, hPlace, r, hR, rfl⟩)
  · rw [(addClobbers_spec f _).fixed] at hMem
    obtain ⟨c, -, hClobber⟩ := mem_flatMap.mp hMem
    exact Or.inr (Or.inr ⟨c, hClobber⟩)

/-- An interval that belongs to a value is the one computed for the value. -/
theorem Computed.value (h : Computed f scanned parameters output) (hMem : a ∈ output) {v : Nat} {t : TypeKind}
    (hOwner : a.owner = .virtual v t) :
    ValueInterval f v a ∧ (addClobbers f (extendStores f scanned)).intervals[v]? = some a := by
  rcases h.cases hMem with ⟨w, hValue, hGet⟩ | ⟨_, -, -, r, -, rfl⟩ | ⟨c, hClobber⟩
  · obtain rfl := hValue.owner hOwner
    exact ⟨hValue, hGet⟩
  · exact absurd hOwner (by simp [parameterInterval])
  · obtain ⟨r, hPrecolored⟩ := clobber_precolored hClobber
    exact absurd (hOwner.symm.trans hPrecolored) (by simp)

theorem Computed.pools (h : Computed f scanned parameters output) (hMem : a ∈ output) (hOwner : a.owner = .precolored r) :
    r ∈ normalPool ∪ vectorPool := by
  apply reserved_mem_pools
  rcases h.cases hMem with ⟨v, hValue, -⟩ | ⟨i, -, -, r', hR', rfl⟩ | ⟨c, hClobber⟩
  · obtain ⟨s, first, last, -, hArgument⟩ := hValue.precolored hOwner
    exact mem_append_left _ (mem_of_getElem? hArgument.register)
  · obtain rfl := Owner.precolored.inj hOwner
    rcases mem_append.mp hR' with hR' | hR'
    · exact mem_append_left _ hR'
    · exact mem_append_right _ (mem_append_left _ (mem_append_left _ hR'))
  · obtain ⟨-, r', hR', rfl⟩ := mem_clobbersAt hClobber
    obtain rfl := Owner.precolored.inj hOwner
    rw [clobberedAfter, append_assoc, append_assoc, ← append_assoc fpArgReg] at hR'
    exact (List.Sublist.append (drop_sublist _ _) (List.Sublist.refl _)).mem hR'

end Whole

end KushDB.Khir
