import KushDB.Khir.CallMoves

/-! # What arrives at a call

An integer argument is read where nothing has been written before its turn, so it arrives. A floating point argument
may be kept in the register of an earlier one; then it arrives exactly if the earlier one is kept there as well.
-/

namespace KushDB.Khir

open Moves List

section Arrives

variable {assignments : Nat → Option Nat} {constants : Constants} {pending : PendingArgs}

theorem eq_of_sameLow {a b : BitVec 64} (h : SameLow 64 a b) : a = b := by
  rwa [SameLow, BitVec.setWidth_eq, BitVec.setWidth_eq] at h

variable {m r : Nat} {transfer : Transfer Location (BitVec 64)} {v : Value} {a : Value × TypeKind}

theorem getElem?_split {α : Type} {items : List α} {item : α} (h : items[m]? = some item) :
    items = items.take m ++ item :: items.drop (m + 1) := by
  obtain ⟨hLt, rfl⟩ := List.getElem?_eq_some_iff.mp h
  rw [← drop_eq_getElem_cons hLt, take_append_drop]

theorem register_not_mem_scratch (h : r ∈ normalPool ∪ vectorPool) : Location.register r ∉ scratch := by
  revert r
  decide

theorem argReg_mem_pools (h : r ∈ fpArgReg ++ normalArgReg) : r ∈ normalPool ∪ vectorPool := by
  revert r
  decide

theorem regularPlace_not_mem_scratch (m : Nat) : regularPlace m ∉ scratch := by
  cases hR : normalArgReg[m]? with
  | some r =>
    rw [regularPlace_eq_register.mpr hR]
    exact register_not_mem_scratch (argReg_mem_pools (mem_append_right _ (mem_of_getElem? hR)))
  | none =>
    rw [regularPlace, hR]
    simp [scratch, rax, xmm15]

theorem callTransfers_dest_not_scratch (hMem : transfer ∈ callTransfers assignments constants pending) :
    transfer.dest ∉ scratch := by
  rcases mem_append.mp hMem with hMem | hMem
  · obtain ⟨r, hR, hDest⟩ := floatTransfers_dest hMem
    rw [hDest]
    exact register_not_mem_scratch (argReg_mem_pools (mem_append_left _ hR))
  · obtain ⟨m, hDest⟩ := regularTransfers_dest hMem
    rw [hDest]
    exact regularPlace_not_mem_scratch m

variable {before : List (Transfer Location (BitVec 64))}

/-- What an argument's place holds after the call's moves, in terms of the moment its turn comes. -/
theorem callTransfers_arrive (h : PendingPlaced assignments pending) {after : List (Transfer Location (BitVec 64))}
    (hSplit : callTransfers assignments constants pending = before ++ transfer :: after) (state : Machine) :
    transfer.agree (run ((callTransfers assignments constants pending).flatMap Transfer.moves) state transfer.dest)
      (transfer.source.read (run (before.flatMap Transfer.moves) state)) := by
  have hMem : transfer ∈ callTransfers assignments constants pending :=
    hSplit ▸ mem_append_right _ mem_cons_self
  have hScratch := callTransfers_dest_not_scratch hMem
  have hCarried := callTransfers_carriedOut constants h
  have hPairwise := dests_pairwise assignments constants pending
  rw [hSplit] at hCarried hPairwise ⊢
  apply run_transfers_dest hCarried hScratch
  exact (pairwise_cons.mp (pairwise_append.mp hPairwise).2.1).1

/-- An operand in a location is read from the register or the slot of its value. -/
theorem operandSource_location {place : Location} (h : operandSource assignments constants v = .location place) :
    ∃ x ∈ v.instruction, place = .slot x ∨ ∃ r, assignments x = some r ∧ place = .register r := by
  rw [operandSource] at h
  split at h
  case isTrue => exact absurd h (by simp)
  case isFalse hVariable =>
    obtain rfl := Source.location.inj h
    refine ⟨v.idx, by simp [Value.instruction, hVariable], ?_⟩
    rw [home]
    split
    case h_1 r hRegister => exact Or.inr ⟨r, hRegister, rfl⟩
    case h_2 => exact Or.inl rfl

/-- No floating point argument is kept in the register of an earlier one, unless the earlier one is kept there too. -/
def FloatsApart (assignments : Nat → Option Nat) (constants : Constants) (floats : List Value) : Prop :=
  ∀ (m n : Nat) (v w : Value) (r : Nat), m < n → floats[m]? = some v → floats[n]? = some w → fpArgReg[m]? = some r →
    operandSource assignments constants w = .location (.register r) →
    operandSource assignments constants v = .location (.register r)

theorem float_split (constants : Constants) (hV : pending.floatingPoint[m]? = some v) (hR : fpArgReg[m]? = some r) :
    callTransfers assignments constants pending =
      (floatTransfers assignments constants pending).take m ++ floatTransfer assignments constants v r ::
        ((floatTransfers assignments constants pending).drop (m + 1) ++
          regularTransfers assignments constants pending) := by
  have hGet : (floatTransfers assignments constants pending)[m]? = some (floatTransfer assignments constants v r) :=
    floatTransfers_getElem?.mpr ⟨v, r, hV, hR, rfl⟩
  conv_lhs => rw [callTransfers, getElem?_split hGet]
  simp

theorem mem_take_floatTransfers (hMem : transfer ∈ (floatTransfers assignments constants pending).take m) :
    ∃ n < m, ∃ v r,
      pending.floatingPoint[n]? = some v ∧ fpArgReg[n]? = some r ∧
      transfer = floatTransfer assignments constants v r := by
  obtain ⟨n, hGet⟩ := mem_iff_getElem?.mp hMem
  rw [getElem?_take] at hGet
  split at hGet
  case isFalse => exact absurd hGet (by simp)
  case isTrue hLt => exact ⟨n, hLt, floatTransfers_getElem?.mp hGet⟩

section

variable (h : PendingPlaced assignments pending)
include h

theorem take_carriedOut (m : Nat) :
    ∀ transfer ∈ (floatTransfers assignments constants pending).take m, transfer.CarriedOut scratch := by
  intro transfer hMem
  exact callTransfers_carriedOut constants h _ (mem_append_left _ (mem_of_mem_take hMem))

theorem float_arrives (hApart : FloatsApart assignments constants pending.floatingPoint)
    (hV : pending.floatingPoint[m]? = some v) (hR : fpArgReg[m]? = some r) (state : Machine) :
    run ((callTransfers assignments constants pending).flatMap Transfer.moves) state (.register r) =
      (operandSource assignments constants v).read state := by
  refine (eq_of_sameLow (callTransfers_arrive h (float_split constants hV hR) state)).trans ?_
  change (operandSource assignments constants v).read _ = _
  cases hSource : operandSource assignments constants v with
  | constant value => rfl
  | location place =>
    obtain ⟨x, hX, hPlace⟩ := operandSource_location hSource
    change run _ state place = state place
    apply run_transfers_keeps (take_carriedOut h m) (fun _ => rfl) (fun _ _ _ => Eq.trans)
    · rcases hPlace with rfl | ⟨r', hHeld, rfl⟩
      · simp [scratch, rax, xmm15]
      · exact register_not_mem_scratch
          (Finset.mem_union_right _ (h.floats v (mem_of_getElem? hV) x hX r' hHeld))
    · intro transfer hMem hDest
      obtain ⟨n, hLt, w, r', hW, hR', rfl⟩ := mem_take_floatTransfers hMem
      obtain rfl : Location.register r' = place := hDest
      exact ⟨hApart n m w v r' hLt hW hV hR' hSource, fun a b => eq_of_sameLow⟩

/-- What has arrived before an argument's turn stays. -/
theorem run_later {n : Nat} {w : Value} (hW : pending.floatingPoint[n]? = some w) (hR : fpArgReg[n]? = some r)
    (hMem : transfer ∈ (floatTransfers assignments constants pending).take n) (state : Machine) :
    run ((callTransfers assignments constants pending).flatMap Transfer.moves) state transfer.dest =
      run (((floatTransfers assignments constants pending).take n).flatMap Transfer.moves) state transfer.dest := by
  have hCarried := callTransfers_carriedOut constants h
  have hPairwise := dests_pairwise assignments constants pending
  have hScratch : transfer.dest ∉ scratch := by
    obtain ⟨_, -, _, r', -, hR', rfl⟩ := mem_take_floatTransfers hMem
    exact register_not_mem_scratch (argReg_mem_pools (mem_append_left _ (mem_of_getElem? hR')))
  rw [float_split constants hW hR] at hCarried hPairwise ⊢
  rw [flatMap_append, run_append]
  apply run_transfers_of_ne (fun other hOther => hCarried other (mem_append_right _ hOther)) hScratch
  exact fun other hOther => (pairwise_append.mp hPairwise).2.2 transfer hMem other hOther

/-- When every floating point argument arrives, none was kept in the register of an earlier one. -/
theorem floatsApart_of_arrive
    (hArrive : ∀ (m : Nat) (v : Value) (r : Nat), pending.floatingPoint[m]? = some v → fpArgReg[m]? = some r →
      ∀ state, run ((callTransfers assignments constants pending).flatMap Transfer.moves) state (.register r) =
        (operandSource assignments constants v).read state) :
    FloatsApart assignments constants pending.floatingPoint := by
  intro m n v w r hLt hV hW hR hSource
  have : Nontrivial (BitVec 64) := ⟨0, 1, by decide⟩
  apply Source.eq_location
  intro state
  obtain ⟨r', hR'⟩ : ∃ r', fpArgReg[n]? = some r' := by
    obtain ⟨hBound, -⟩ := List.getElem?_eq_some_iff.mp hW
    exact ⟨_, getElem?_eq_getElem (hBound.trans_le h.count)⟩
  -- the later argument is read when the earlier one has arrived, and nothing is brought there afterwards
  have hTurn : run ((callTransfers assignments constants pending).flatMap Transfer.moves) state (.register r') =
      (operandSource assignments constants w).read
        (run (((floatTransfers assignments constants pending).take n).flatMap Transfer.moves) state) :=
    eq_of_sameLow (callTransfers_arrive h (float_split constants hW hR') state)
  rw [hArrive n w r' hW hR' state, hSource] at hTurn
  have hMem : floatTransfer assignments constants v r ∈ (floatTransfers assignments constants pending).take n := by
    apply mem_iff_getElem?.mpr ⟨m, ?_⟩
    rw [getElem?_take_of_lt hLt]
    exact floatTransfers_getElem?.mpr ⟨v, r, hV, hR, rfl⟩
  have hStays := run_later h hW hR' hMem state
  rw [← hArrive m v r hV hR state]
  exact hStays.trans hTurn.symm

/-- Where an integer argument is read, nothing has been written before its turn. -/
theorem read_before (hA : pending.regular[m]? = some a)
    (hBefore : ∀ transfer ∈ before, transfer.CarriedOut scratch ∧
      ((∃ r ∈ fpArgReg, transfer.dest = .register r) ∨ ∃ n < m, transfer.dest = regularPlace n))
    (state : Machine) : (operandSource assignments constants a.1).read (run (before.flatMap Transfer.moves) state) =
      (operandSource assignments constants a.1).read state := by
  apply read_transfers (fun transfer hMem => (hBefore transfer hMem).1)
  intro place hSource
  obtain ⟨x, hX, hPlace⟩ := operandSource_location hSource
  rcases hPlace with rfl | ⟨r, hHeld, rfl⟩
  · refine ⟨by simp [scratch, rax, xmm15], fun transfer hMem => ?_⟩
    rcases (hBefore transfer hMem).2 with ⟨r, -, hDest⟩ | ⟨n, -, hDest⟩
    · simp [hDest]
    · rw [hDest, regularPlace]
      split <;> simp
  · have hPool := h.regular a (mem_of_getElem? hA) x hX r hHeld
    refine ⟨register_not_mem_scratch (Finset.mem_union_left _ hPool), fun transfer hMem hEq => ?_⟩
    rcases (hBefore transfer hMem).2 with ⟨r', hR', hDest⟩ | ⟨n, hLt, hDest⟩
    · obtain rfl := Location.register.inj (hDest.symm.trans hEq)
      have hDisjoint : ∀ r ∈ fpArgReg, r ∉ normalPool := by decide
      exact hDisjoint r' hR' hPool
    · exact h.apart m a hA x hX n hLt r (regularPlace_eq_register.mp (hDest.symm.trans hEq)) hHeld

theorem regular_arrives (hA : pending.regular[m]? = some a) (state : Machine) :
    SameLow a.2.width
      (run ((callTransfers assignments constants pending).flatMap Transfer.moves) state (regularPlace m))
      ((operandSource assignments constants a.1).read state) := by
  have hGet : (regularTransfers assignments constants pending)[m]? = some (regularTransfer assignments constants a m) :=
    regularTransfers_getElem?.mpr ⟨a, hA, rfl⟩
  have hSplit : callTransfers assignments constants pending = (floatTransfers assignments constants pending ++
      (regularTransfers assignments constants pending).take m) ++ regularTransfer assignments constants a m ::
        (regularTransfers assignments constants pending).drop (m + 1) := by
    conv_lhs => rw [callTransfers, getElem?_split hGet]
    simp
  have hArrive := callTransfers_arrive h hSplit state
  change SameLow a.2.width _ ((operandSource assignments constants a.1).read _) at hArrive
  rw [read_before h hA] at hArrive
  · exact hArrive
  · intro transfer hMem
    refine ⟨callTransfers_carriedOut constants h transfer (hSplit ▸ mem_append_left _ hMem), ?_⟩
    rcases mem_append.mp hMem with hMem | hMem
    · exact Or.inl (floatTransfers_dest hMem)
    · obtain ⟨n, hN⟩ := mem_iff_getElem?.mp hMem
      rw [getElem?_take] at hN
      split at hN
      case isFalse => exact absurd hN (by simp)
      case isTrue hLt =>
        obtain ⟨_, -, rfl⟩ := regularTransfers_getElem?.mp hN
        exact Or.inr ⟨n, hLt, rfl⟩

end

end Arrives

end KushDB.Khir
