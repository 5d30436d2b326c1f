import KushDB.Khir.CallArgLiveness

/-! # The fixed intervals

After the scan every store keeps the interval of its own position. The parameters, the arguments of calls and the
registers that a call overwrites are described by where they stand in the linear numbering.
-/

namespace KushDB.Khir

open Liveness List

section Stores

variable {f : Function}

/-- After the stores are extended: other values keep the interval of the scan, and a store has its own position. -/
structure StoresExtended (f : Function) (scanned intervals : List LiveInterval) : Prop where
  length : intervals.length = scanned.length
  others : ∀ v, (f.opcode v).isStore = false → intervals[v]? = scanned[v]?
  stores : ∀ v, (f.opcode v).isStore = true → ∀ interval, intervals[v]? = some interval →
    interval.owner = .virtual v (f.instr v).typeOf ∧
      (interval.range = none ∨ ∃ p, f.order[p]? = some v ∧ interval.range = some (p, p))

variable {scanned : List LiveInterval}

theorem extendStores_spec (hExact : ExactIntervals f scanned) : StoresExtended f scanned (extendStores f scanned) := by
  have hStart : StoresExtended f scanned scanned := by
    refine ⟨rfl, fun _ _ => rfl, fun v hStore interval hGet => ?_⟩
    obtain ⟨hLt, -⟩ := List.getElem?_eq_some_iff.mp hGet
    obtain ⟨other, hOther, hOwner, hHull⟩ := hExact.2 v (hExact.1 ▸ hLt)
    obtain rfl := Option.some.inj (hOther.symm.trans hGet)
    refine ⟨hOwner, Or.inl ?_⟩
    cases hRange : other.range with
    | none => rfl
    | some range => exact absurd (hHull.ends range.1 range.2 hRange).2.1 (not_touched_of_isStore hStore)
  have hStep : ∀ place ∈ f.places, ∀ intervals, StoresExtended f scanned intervals →
      StoresExtended f scanned (if (f.opcode place.2).isStore then
        intervals.modify place.2 (·.extend (f.position place.1 place.2)) else intervals) := by
    rintro ⟨b, i⟩ hPlace intervals h
    have hOrder : f.order[f.position b i]? = some i := order_position hPlace
    split
    case isFalse => exact h
    case isTrue hStore =>
      refine ⟨by rw [length_modify]; exact h.length, fun v hOther => ?_, fun v hV interval hGet => ?_⟩
      · have hNe : i ≠ v := by
          rintro rfl
          exact absurd (hStore.symm.trans hOther) (by simp)
        rw [getElem?_modify_ne _ _ hNe]
        exact h.others v hOther
      · rw [getElem?_modify] at hGet
        obtain ⟨old, hOld, hNew⟩ := Option.map_eq_some_iff.mp hGet
        obtain ⟨hOwner, hRange⟩ := h.stores v hV old hOld
        dsimp only at hNew
        split at hNew
        case isFalse =>
          obtain rfl := hNew
          exact ⟨hOwner, hRange⟩
        case isTrue hEq =>
          obtain rfl := hEq
          obtain rfl := hNew
          rcases hRange with hNone | ⟨p, hP, hSome⟩
          · simp only [LiveInterval.extend, hNone]
            exact ⟨hOwner, Or.inr ⟨_, hOrder, rfl⟩⟩
          · obtain rfl := order_inj hP hOrder
            simp only [LiveInterval.extend, hSome, min_self, max_self]
            exact ⟨hOwner, Or.inr ⟨_, hOrder, rfl⟩⟩
  exact List.foldlRecOn f.places _ hStart fun intervals h place hMem => hStep place hMem intervals h

variable {v : Nat}

theorem lt_of_opcode_ne (h : f.opcode v ≠ .ret) : v < f.instrs.length := by
  by_contra hGe
  exact h (by rw [Body.opcode, Body.instr, getD_eq_default _ _ (not_lt.mp hGe)]; rfl)

theorem isSome_range_extend (a : LiveInterval) (p : Nat) : (a.extend p).range.isSome = true := by
  rw [LiveInterval.extend]
  split <;> rfl

/-- A store that is passed, or was passed before, has an interval. -/
theorem isSome_range_foldl (hStore : (f.opcode v).isStore = true) (places : List (Nat × Nat))
    (intervals : List LiveInterval) (hLt : v < intervals.length)
    (h : v ∈ places.map Prod.snd ∨ ∃ a, intervals[v]? = some a ∧ a.range.isSome = true) :
    ∃ a, (places.foldl (fun intervals place => if (f.opcode place.2).isStore then
      intervals.modify place.2 (·.extend (f.position place.1 place.2)) else intervals) intervals)[v]? = some a ∧
        a.range.isSome = true := by
  induction places generalizing intervals with
  | nil => exact h.resolve_left not_mem_nil
  | cons place rest ih =>
    rw [foldl_cons]
    by_cases hSame : place.2 = v
    · rw [if_pos (hSame ▸ hStore), hSame]
      refine ih _ (by rwa [length_modify]) (Or.inr ⟨_, ?_, isSome_range_extend intervals[v] (f.position place.1 v)⟩)
      rw [getElem?_modify_eq, getElem?_eq_getElem hLt]
      rfl
    · have hKept : (if (f.opcode place.2).isStore then
          intervals.modify place.2 (·.extend (f.position place.1 place.2)) else intervals)[v]? = intervals[v]? := by
        split
        · exact getElem?_modify_ne _ _ hSame
        · rfl
      refine ih _ ?_ (h.imp (fun hMem => ?_) fun hBefore => hKept ▸ hBefore)
      · split
        · rwa [length_modify]
        · exact hLt
      · rw [map_cons, mem_cons] at hMem
        exact hMem.resolve_left (Ne.symm hSame)

theorem extendStores_store (hExact : ExactIntervals f scanned) {p : Nat} (hOrder : f.order[p]? = some v)
    (hStore : (f.opcode v).isStore = true) :
    ∃ a, (extendStores f scanned)[v]? = some a ∧ a.range = some (p, p) ∧ a.owner = .virtual v (f.instr v).typeOf := by
  have hSpec := extendStores_spec hExact
  have hLt : v < scanned.length := by
    rw [hExact.1]
    refine lt_of_opcode_ne fun hRet => ?_
    rw [hRet] at hStore
    exact absurd hStore (by simp [Opcode.isStore])
  obtain ⟨a, hGet, hSome⟩ := isSome_range_foldl hStore f.places scanned hLt (Or.inl (mem_of_getElem? hOrder))
  obtain ⟨hOwner, hNone | ⟨q, hPlace, hRange⟩⟩ := hSpec.stores v hStore a hGet
  · exact absurd (hNone ▸ hSome) (by simp)
  · obtain rfl := order_inj hPlace hOrder
    exact ⟨a, hGet, hRange, hOwner⟩

end Stores

section Clobbers

/-- The registers that a call overwrites besides those of its first arguments. -/
def clobberedAfter (arguments : Nat) : List Nat :=
  normalArgReg.drop arguments ++ fpArgReg ++ normalCallerSave ++ fpCallerSave

def clobbersAt (f : Function) (c : Nat) : List LiveInterval :=
  if (f.order[c]?).any fun i => (f.opcode i).isCall then
    (clobberedAfter (f.callRun c)).map fun register => ⟨some (c, c), .precolored register⟩
  else []

/-- The interval of an argument of a call, which takes the next register while there is one. -/
def coloured (f : Function) (v : Nat) (interval : LiveInterval) : LiveInterval :=
  match normalArgReg[f.callRun (f.order.idxOf v)]? with
  | some register => interval.changeToPrecolored register
  | none => interval

structure Clobbered (f : Function) (intervals : List LiveInterval) (p : Nat) (state : ClobberState) : Prop where
  normal : state.normalArgCtr = f.callRun p
  fp : state.fpArgCtr = 0
  fixed : state.fixed = (List.range p).flatMap (clobbersAt f)
  intervals : ∀ v, state.intervals[v]? = (intervals[v]?).map fun interval =>
    if v ∈ f.order.take p ∧ f.opcode v = .callArg then coloured f v interval else interval

variable {f : Function}
variable {p i b : Nat} {intervals : List LiveInterval} {state : ClobberState}
variable {v : Nat}

theorem order_idxOf (hOrder : f.order[p]? = some v) : f.order.idxOf v = p := by
  obtain ⟨hLt, rfl⟩ := List.getElem?_eq_some_iff.mp hOrder
  exact f.wellFormed.nodup.idxOf_getElem p hLt

theorem mem_take_succ {w : Nat} (hOrder : f.order[p]? = some v) :
    w ∈ f.order.take (p + 1) ↔ w ∈ f.order.take p ∨ w = v := by
  obtain ⟨hLt, hEq⟩ := List.getElem?_eq_some_iff.mp hOrder
  rw [take_succ_eq_append_getElem hLt, mem_append, mem_singleton, hEq]

theorem Clobbered.intervals_succ (h : Clobbered f intervals p state) (hOrder : f.order[p]? = some i)
    (hOther : f.opcode i ≠ .callArg) (v : Nat) :
    state.intervals[v]? = (intervals[v]?).map fun interval =>
      if v ∈ f.order.take (p + 1) ∧ f.opcode v = .callArg then coloured f v interval else interval := by
  have hSame : (v ∈ f.order.take (p + 1) ∧ f.opcode v = .callArg) ↔ v ∈ f.order.take p ∧ f.opcode v = .callArg := by
    rw [mem_take_succ hOrder]
    constructor
    · rintro ⟨hMem | rfl, hArg⟩
      · exact ⟨hMem, hArg⟩
      · exact absurd hArg hOther
    · exact fun ⟨hMem, hArg⟩ => ⟨Or.inl hMem, hArg⟩
  simp only [hSame]
  exact h.intervals v

theorem clobbersAt_of_not_call (hOrder : f.order[p]? = some i) (hCall : (f.opcode i).isCall = false) :
    clobbersAt f p = [] := by
  rw [clobbersAt, hOrder, Option.any_some, hCall]
  rfl

section

variable (h : Clobbered f intervals p state) (hOrder : f.order[p]? = some i)
include h hOrder

theorem Clobbered.callArg (hArg : f.opcode i = .callArg) :
    Clobbered f intervals (p + 1) (clobberStep f state (b, i)) := by
  have hVoid : (f.instr i).typeOf ≠ .f64 := by
    rw [Instr.typeOf, show (f.instr i).opcode = _ from hArg]
    simp
  have hNotCall : (f.opcode i).isCall = false := by rw [hArg]; rfl
  rw [clobberStep]
  dsimp only
  rw [hArg]
  dsimp only
  rw [if_neg hVoid]
  refine ⟨?_, h.fp, ?_, fun v => ?_⟩
  · rw [callRun_of_callArg hOrder hArg, ← h.normal]
  · rw [range_succ, flatMap_append, flatMap_singleton, clobbersAt_of_not_call hOrder hNotCall,
      append_nil]
    exact h.fixed
  · have hColoured : ∀ interval, coloured f i interval = match normalArgReg[state.normalArgCtr]? with
        | some register => interval.changeToPrecolored register
        | none => interval := by
      intro interval
      rw [coloured, order_idxOf hOrder, h.normal]
    have hModify : (match normalArgReg[state.normalArgCtr]? with
        | some register => state.intervals.modify i (·.changeToPrecolored register)
        | none => state.intervals) = state.intervals.modify i (coloured f i) := by
      simp only [funext hColoured]
      cases normalArgReg[state.normalArgCtr]? with
      | some register => rfl
      | none => exact (modify_id _ _).symm
    have hFresh : i ∉ f.order.take p := by
      intro hMem
      obtain ⟨q, hQ⟩ := mem_iff_getElem?.mp hMem
      obtain ⟨hLt, -⟩ := List.getElem?_eq_some_iff.mp hQ
      rw [length_take] at hLt
      rw [getElem?_take_of_lt (by omega)] at hQ
      have := order_inj hQ hOrder
      omega
    refine (congrArg (fun result : List LiveInterval => result[v]?) hModify).trans ?_
    rw [getElem?_modify, h.intervals v, Option.map_eq_map, Option.map_map]
    congr 1
    funext interval
    simp only [Function.comp, mem_take_succ hOrder]
    by_cases hEq : i = v
    · subst hEq
      simp [hArg, hFresh]
    · simp [hEq, Ne.symm hEq]

theorem Clobbered.call (hPosition : f.position b i = p) (hCall : (f.opcode i).isCall = true) :
    Clobbered f intervals (p + 1) (clobberStep f state (b, i)) := by
  have hNotArg : f.opcode i ≠ .callArg := by
    intro hArg
    rw [hArg] at hCall
    exact absurd hCall (by simp [Opcode.isCall])
  have hStep : clobberStep f state (b, i) =
      { state with
        fixed := state.fixed ++ (normalArgReg.drop state.normalArgCtr ++ fpArgReg.drop state.fpArgCtr ++
          normalCallerSave ++ fpCallerSave).map fun register => ⟨some (f.position b i, f.position b i),
            .precolored register⟩
        normalArgCtr := 0
        fpArgCtr := 0 } := by
    rw [clobberStep]
    dsimp only
    rcases isCall_iff.mp hCall with hOpcode | hOpcode <;> rw [hOpcode]
  rw [hStep]
  refine ⟨(callRun_of_not_callArg hOrder hNotArg).symm, rfl, ?_, h.intervals_succ hOrder hNotArg⟩
  rw [range_succ, flatMap_append, flatMap_singleton, ← h.fixed, clobbersAt, hOrder, Option.any_some,
    if_pos hCall, clobberedAfter, h.normal, h.fp, hPosition]
  rfl

theorem Clobbered.other (hOther : (f.opcode i).continuesCall = false) :
    Clobbered f intervals (p + 1) (clobberStep f state (b, i)) := by
  have hNotArg : f.opcode i ≠ .callArg := by
    intro hArg
    rw [hArg] at hOther
    exact absurd hOther (by simp [Opcode.continuesCall])
  have hNotCall : (f.opcode i).isCall = false := by
    cases hOpcode : f.opcode i <;> rw [hOpcode] at hOther <;> first | rfl | exact absurd hOther (by decide)
  have hStep : clobberStep f state (b, i) = state := by
    rw [clobberStep]
    dsimp only
    split
    case h_1 hArg => exact absurd hArg hNotArg
    case h_2 hIndirect => rw [hIndirect] at hNotCall; exact absurd hNotCall (by decide)
    case h_3 hDirect => rw [hDirect] at hNotCall; exact absurd hNotCall (by decide)
    case h_4 => rfl
  rw [hStep]
  refine ⟨?_, h.fp, ?_, h.intervals_succ hOrder hNotArg⟩
  · rw [callRun_of_not_callArg hOrder hNotArg, h.normal, callRun_eq_zero hOrder hOther]
  · rw [range_succ, flatMap_append, flatMap_singleton, clobbersAt_of_not_call hOrder hNotCall,
      append_nil]
    exact h.fixed

end

/-- The whole pass: the induction is on the position reached. -/
theorem addClobbers_spec (f : Function) (intervals : List LiveInterval) :
    Clobbered f intervals f.order.length (addClobbers f intervals) := by
  have hLength : f.order.length = f.places.length := length_map _
  have hRun : ∀ p ≤ f.places.length,
      Clobbered f intervals p ((f.places.take p).foldl (clobberStep f) ⟨intervals, [], 0, 0⟩) := by
    intro p
    induction p with
    | zero => exact fun _ => ⟨rfl, rfl, rfl, fun v => by simp⟩
    | succ p ih =>
      intro hLe
      have h := ih (Nat.le_of_succ_le hLe)
      obtain ⟨⟨b, i⟩, hPlace⟩ : ∃ place, f.places[p] = place := ⟨_, rfl⟩
      have hGet : f.places[p]? = some (b, i) := by rw [getElem?_eq_getElem hLe, hPlace]
      have hOrder : f.order[p]? = some i := by rw [Body.order, getElem?_map, hGet]; rfl
      rw [take_succ_eq_append_getElem hLe, foldl_append, hPlace]
      change Clobbered f intervals (p + 1) (clobberStep f _ (b, i))
      cases hContinues : (f.opcode i).continuesCall with
      | false => exact h.other hOrder hContinues
      | true =>
        cases hCall : (f.opcode i).isCall with
        | true => exact h.call hOrder (order_inj (order_position (mem_of_getElem? hGet)) hOrder) hCall
        | false =>
          apply h.callArg hOrder
          cases hOpcode : f.opcode i <;> rw [hOpcode] at hContinues hCall <;>
            first | rfl | exact absurd hContinues (by decide) | exact absurd hCall (by decide)
  have hAll := hRun f.places.length le_rfl
  rw [take_length] at hAll
  rw [hLength]
  exact hAll

end Clobbers

end KushDB.Khir
