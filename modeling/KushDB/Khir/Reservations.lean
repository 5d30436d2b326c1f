import KushDB.Khir.LinearScanRun
import KushDB.Khir.ParameterIntervals

/-! # Reserved intervals keep out of each other's way

Every reserved interval covers instructions of one sort only: a store, the parameters, or the arguments of one call
together with the call. Inside one sort the registers are different. So no register is reserved twice at a time.
-/

namespace KushDB.Khir

open Liveness

def LiveInterval.Meets (a b : LiveInterval) : Prop :=
  a.start ≤ b.stop ∧ b.start ≤ a.stop

def LiveInterval.IsStore (f : Function) (a : LiveInterval) : Prop :=
  ∃ v t, a.owner = .virtual v t ∧ ((f.opcode v).allocForm = .maskStore ∨ (f.opcode v).allocForm = .store)

def LiveInterval.IsPrecolored (a : LiveInterval) : Prop :=
  ∃ r, a.owner = .precolored r

/-- What the scan asks of two different intervals. -/
structure Apart (f : Function) (a b : LiveInterval) : Prop where
  values : ∀ v t t', a.owner = .virtual v t → b.owner ≠ .virtual v t'
  fixed : ∀ r, a.owner = .precolored r → b.owner = .precolored r → ¬ a.Meets b
  stores : a.IsStore f ∧ (b.IsStore f ∨ b.IsPrecolored) ∨ a.IsPrecolored ∧ b.IsStore f → ¬ a.Meets b

theorem Apart.symm {f : Function} {a b : LiveInterval} (h : Apart f a b) : Apart f b a where
  values v t t' hB hA := h.values v t' t hA hB
  fixed r hB hA := fun hMeets => h.fixed r hA hB hMeets.symm
  stores hStores hMeets := by
    refine h.stores ?_ hMeets.symm
    rcases hStores with ⟨hB, hA | hA⟩ | ⟨hB, hA⟩
    · exact Or.inl ⟨hA, Or.inl hB⟩
    · exact Or.inr ⟨hA, hB⟩
    · exact Or.inl ⟨hA, Or.inr hB⟩

section Sorts

variable {f : Function}

/-- The interval covers only instructions of one sort. -/
def CoversOnly (f : Function) (sort : Opcode → Bool) (a : LiveInterval) : Prop :=
  ∃ first last, a.range = some (first, last) ∧ first ≤ last ∧
    ∀ q, first ≤ q → q ≤ last → ∃ w, f.order[q]? = some w ∧ sort (f.opcode w) = true

variable {a : LiveInterval}
variable {first last : Nat} {b : LiveInterval}

theorem LiveInterval.start_eq (h : a.range = some (first, last)) : a.start = first ∧ a.stop = last := by
  rw [LiveInterval.start, LiveInterval.stop, h]
  exact ⟨rfl, rfl⟩

theorem LiveInterval.meets_of_contains {c : LiveInterval} {p : Nat} (hA : a.contains p) (hC : c.contains p) :
    a.Meets c := by
  obtain ⟨first, last, hRange, hFirst, hLast⟩ := hA
  obtain ⟨first', last', hRange', hFirst', hLast'⟩ := hC
  obtain ⟨hStart, hStop⟩ := LiveInterval.start_eq hRange
  obtain ⟨hStart', hStop'⟩ := LiveInterval.start_eq hRange'
  rw [LiveInterval.Meets, hStart, hStop, hStart', hStop']
  exact ⟨hFirst.trans hLast', hFirst'.trans hLast⟩

/-- Two intervals that meet share a position. -/
theorem LiveInterval.Meets.exists {first' last' : Nat} (hMeets : a.Meets b) (hA : a.range = some (first, last))
    (hB : b.range = some (first', last')) (hLe : first ≤ last) (hLe' : first' ≤ last') :
    ∃ q, first ≤ q ∧ q ≤ last ∧ first' ≤ q ∧ q ≤ last' := by
  obtain ⟨hStart, hStop⟩ := LiveInterval.start_eq hA
  obtain ⟨hStart', hStop'⟩ := LiveInterval.start_eq hB
  rw [LiveInterval.Meets, hStart, hStop, hStart', hStop'] at hMeets
  exact ⟨max first first', le_max_left _ _, max_le hLe hMeets.2, le_max_right _ _, max_le hMeets.1 hLe'⟩

theorem not_meets_of_sorts {sort sort' : Opcode → Bool} (hA : CoversOnly f sort a) (hB : CoversOnly f sort' b)
    (hSorts : ∀ opcode, sort opcode = true → sort' opcode = false) : ¬ a.Meets b := by
  rintro hMeets
  obtain ⟨first, last, hRange, hLe, hAll⟩ := hA
  obtain ⟨first', last', hRange', hLe', hAll'⟩ := hB
  obtain ⟨q, hQ, hQ', hQ'', hQ'''⟩ := hMeets.exists hRange hRange' hLe hLe'
  obtain ⟨w, hOrder, hSort⟩ := hAll q hQ hQ'
  obtain ⟨w', hOrder', hSort'⟩ := hAll' q hQ'' hQ'''
  obtain rfl := Option.some.inj (hOrder.symm.trans hOrder')
  exact absurd (hSort'.symm.trans (hSorts _ hSort)) (by simp)

def Opcode.isFuncArg (opcode : Opcode) : Bool :=
  opcode = .funcArg

theorem isStore_disjoint_call (opcode : Opcode) : opcode.isStore = true → opcode.continuesCall = false := by
  cases opcode <;> simp [Opcode.isStore, Opcode.continuesCall]

theorem isStore_disjoint_parameter (opcode : Opcode) : opcode.isStore = true → opcode.isFuncArg = false := by
  cases opcode <;> simp [Opcode.isStore, Opcode.isFuncArg]

theorem call_disjoint_parameter (opcode : Opcode) : opcode.continuesCall = true → opcode.isFuncArg = false := by
  cases opcode <;> simp [Opcode.continuesCall, Opcode.isFuncArg]

theorem isStore_of_allocForm {opcode : Opcode} (h : opcode.allocForm = .maskStore ∨ opcode.allocForm = .store) :
    opcode.isStore = true := by
  revert h
  cases opcode <;> simp [Opcode.allocForm, Opcode.isStore]

end Sorts

section Values

variable {f : Function}

/-- The interval of an argument of a call that has a register. -/
structure ArgumentInterval (f : Function) (v s r first last : Nat) : Prop where
  order : f.order[s]? = some v
  opcode : f.opcode v = .callArg
  register : normalArgReg[f.callRun s]? = some r
  after : s ≤ first
  proper : first ≤ last
  upTo : ArgsUpTo f s last

/-- The interval of value `v` after all passes. -/
inductive ValueInterval (f : Function) (v : Nat) : LiveInterval → Prop
  | plain {a : LiveInterval} {t : TypeKind} (hOwner : a.owner = .virtual v t)
      (hStore : (f.opcode v).isStore = false) : ValueInterval f v a
  | store {p : Nat} {t : TypeKind} (hOrder : f.order[p]? = some v) (hStore : (f.opcode v).isStore = true) :
      ValueInterval f v ⟨some (p, p), .virtual v t⟩
  | argument {s r first last : Nat} (hArgument : ArgumentInterval f v s r first last) :
      ValueInterval f v ⟨some (first, last), .precolored r⟩

variable {p s v q r w : Nat} {a : LiveInterval}

theorem ArgsUpTo.order_isSome (h : ArgsUpTo f s p) (hOrder : f.order[s]? = some v) (hArg : f.opcode v = .callArg) :
    ∃ w, f.order[p]? = some w ∧ (f.opcode w).continuesCall = true := by
  have hEnd := h.order hOrder
  refine ⟨_, hEnd, ?_⟩
  rcases Nat.eq_or_lt_of_le h.1 with rfl | hLt
  · rw [Nat.sub_self, Nat.add_zero, hArg]
    rfl
  · obtain ⟨w, hBefore, hArg'⟩ := h.2 (p - 1) (by omega) (by omega)
    obtain ⟨hNext, hContinues⟩ := order_callArg hBefore hArg'
    rw [show p - 1 + 1 = p by omega] at hNext
    rwa [Option.some.inj (hEnd.symm.trans hNext)]

theorem ArgsUpTo.mono (h : ArgsUpTo f s p) (hS : s ≤ q) (hQ : q ≤ p) : ArgsUpTo f s q :=
  ⟨hS, fun j hJ hLt => h.2 j hJ (hLt.trans_le hQ)⟩

theorem ArgsUpTo.from (h : ArgsUpTo f s p) (hS : s ≤ q) (hQ : q ≤ p) : ArgsUpTo f q p :=
  ⟨hQ, fun j hJ hLt => h.2 j (hS.trans hJ) hLt⟩

variable {first last : Nat}

theorem ArgumentInterval.only (h : ArgumentInterval f v s r first last) (owner : Owner) :
    CoversOnly f Opcode.continuesCall ⟨some (first, last), owner⟩ :=
  ⟨first, last, rfl, h.proper, fun _ hFirst hLast =>
    (h.upTo.mono (h.after.trans hFirst) hLast).order_isSome h.order h.opcode⟩

theorem storeInterval_only (hOrder : f.order[p]? = some v) (hStore : (f.opcode v).isStore = true) (owner : Owner) :
    CoversOnly f Opcode.isStore ⟨some (p, p), owner⟩ :=
  ⟨p, p, rfl, le_rfl, fun q hFirst hLast => ⟨v, by rw [show q = p by omega, hOrder], hStore⟩⟩

theorem normalArgReg_inj {j k : Nat} (hJ : normalArgReg[j]? = some r) (hK : normalArgReg[k]? = some r) : j = k := by
  obtain ⟨hLt, -⟩ := List.getElem?_eq_some_iff.mp hJ
  have hNodup : normalArgReg.Nodup := by decide
  exact (List.getElem?_inj hLt hNodup).mp (hJ.trans hK.symm)

/-- Two arguments that are live at one place belong to one call, so they have different registers. -/
theorem ArgumentInterval.value_eq {s' first' last' : Nat} (h : ArgumentInterval f v s r first last)
    (h' : ArgumentInterval f w s' r first' last') (hFirst : first ≤ q) (hLast : q ≤ last) (hFirst' : first' ≤ q)
    (hLast' : q ≤ last') : v = w := by
  have hRun := normalArgReg_inj h.register h'.register
  have hA := (h.upTo.mono (h.after.trans hFirst) hLast).callRun
  have hB := (h'.upTo.mono (h'.after.trans hFirst') hLast').callRun
  have hS := h.after
  have hS' := h'.after
  obtain rfl : s = s' := by omega
  exact Option.some.inj (h.order.symm.trans h'.order)

section

variable (h : ValueInterval f v a)
include h

theorem ValueInterval.owner {t : TypeKind} (hOwner : a.owner = .virtual w t) : v = w := by
  cases h with
  | plain hPlain => exact (Owner.virtual.inj (hPlain.symm.trans hOwner)).1
  | store => exact (Owner.virtual.inj hOwner).1
  | argument => exact absurd hOwner (by simp)

theorem ValueInterval.store_position (hIs : a.IsStore f) :
    ∃ p, a.range = some (p, p) ∧ f.order[p]? = some v ∧ (f.opcode v).isStore = true := by
  obtain ⟨w, t, hOwner, hForm⟩ := hIs
  obtain rfl := h.owner hOwner
  have hStore := isStore_of_allocForm hForm
  cases h with
  | plain _ hNot => exact absurd (hStore.symm.trans hNot) (by simp)
  | store hOrder => exact ⟨_, rfl, hOrder, hStore⟩
  | argument => exact absurd hOwner (by simp)

theorem ValueInterval.precolored (hOwner : a.owner = .precolored r) :
    ∃ s first last, a.range = some (first, last) ∧
      ArgumentInterval f v s r first last := by
  cases h with
  | plain hPlain => exact absurd (hPlain.symm.trans hOwner) (by simp)
  | store => exact absurd hOwner (by simp)
  | argument hArgument =>
    obtain rfl := Owner.precolored.inj hOwner
    exact ⟨_, _, _, rfl, hArgument⟩

theorem ValueInterval.store_only (hIs : a.IsStore f) : CoversOnly f Opcode.isStore a := by
  obtain ⟨p, hRange, hOrder, hStore⟩ := h.store_position hIs
  obtain ⟨first, last, hSome, hRest⟩ := storeInterval_only hOrder hStore a.owner
  exact ⟨first, last, hRange.trans hSome, hRest⟩

theorem ValueInterval.precolored_only (hIs : a.IsPrecolored) : CoversOnly f Opcode.continuesCall a := by
  obtain ⟨r, hOwner⟩ := hIs
  obtain ⟨s, first, last, hRange, hArgument⟩ := h.precolored hOwner
  obtain ⟨_, _, hSome, hRest⟩ := hArgument.only a.owner
  exact ⟨_, _, hRange.trans hSome, hRest⟩

end

theorem ValueInterval.apart {b : LiveInterval} (hA : ValueInterval f v a) (hB : ValueInterval f w b) (hNe : v ≠ w) :
    Apart f a b where
  values u t t' hOwnerA hOwnerB := hNe ((hA.owner hOwnerA).trans (hB.owner hOwnerB).symm)
  fixed r hOwnerA hOwnerB hMeets := by
    obtain ⟨s, first, last, hRange, hArgument⟩ := hA.precolored hOwnerA
    obtain ⟨s', first', last', hRange', hArgument'⟩ := hB.precolored hOwnerB
    obtain ⟨q, hQ, hQ', hQ'', hQ'''⟩ := hMeets.exists hRange hRange' hArgument.proper hArgument'.proper
    exact hNe (hArgument.value_eq hArgument' hQ hQ' hQ'' hQ''')
  stores hStores hMeets := by
    rcases hStores with ⟨hStoreA, hStoreB | hFixed⟩ | ⟨hFixed, hStoreB⟩
    · obtain ⟨p, hRange, hOrder, -⟩ := hA.store_position hStoreA
      obtain ⟨p', hRange', hOrder', -⟩ := hB.store_position hStoreB
      obtain ⟨q, hQ, hQ', hQ'', hQ'''⟩ := hMeets.exists hRange hRange' le_rfl le_rfl
      obtain rfl : p = p' := by omega
      exact hNe (Option.some.inj (hOrder.symm.trans hOrder'))
    · exact not_meets_of_sorts (hA.store_only hStoreA) (hB.precolored_only hFixed) isStore_disjoint_call hMeets
    · exact not_meets_of_sorts (hB.store_only hStoreB) (hA.precolored_only hFixed) isStore_disjoint_call hMeets.symm

end Values

end KushDB.Khir
