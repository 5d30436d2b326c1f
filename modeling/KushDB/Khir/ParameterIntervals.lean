import KushDB.Khir.FixedIntervals

/-! # The registers of the parameters

Every parameter reserves the register it arrives in from the start of the function up to where it is taken. There are
six registers for integers and pointers and eight for floats, and the parameters have to stand in the first block.
-/

namespace KushDB.Khir

open Fallible List

/-- The instructions at the front that take parameters. -/
def leadingParameters (instrs : List Instr) : List Instr :=
  instrs.takeWhile (·.opcode = .funcArg)

/-- Every parameter stands in the first block and has a register to arrive in. -/
structure ParametersFit (f : Function) : Prop where
  places : ∀ i < (leadingParameters f.instrs).length, (0, i) ∈ f.places
  normal : (leadingParameters f.instrs).countP (·.typeId ≠ .f64) ≤ normalArgReg.length
  fp : (leadingParameters f.instrs).countP (·.typeId = .f64) ≤ fpArgReg.length

section Parameters

variable {f : Function}

/-- The interval of the parameter at `i`. -/
def parameterInterval (f : Function) (i register : Nat) : LiveInterval :=
  ⟨some (min (f.position 0 0) (f.position 0 i), max (f.position 0 0) (f.position 0 i)), .precolored register⟩

variable {instr : Instr} {i fp normal : Nat} {rest : List Instr}

theorem leadingParameters_cons (rest : List Instr) (hParameter : instr.opcode = .funcArg) :
    leadingParameters (instr :: rest) = instr :: leadingParameters rest := by
  rw [leadingParameters, takeWhile_cons_of_pos (by simpa using hParameter)]
  rfl

theorem leadingParameters_nil (rest : List Instr) (hParameter : instr.opcode ≠ .funcArg) :
    leadingParameters (instr :: rest) = [] :=
  takeWhile_cons_of_neg (by simpa using hParameter)

theorem instrMapAt_ok {b p : Nat} (h : instrMapAt f b i = .ok p) : (b, i) ∈ f.places ∧ p = f.position b i := by
  rw [instrMapAt] at h
  split at h
  case isTrue hPlace => exact ⟨hPlace, (Except.ok.inj h).symm⟩
  case isFalse => exact absurd h (by simp)

/-- The register a parameter arrives in when the first ones of each class are taken. -/
def parameterRegister (instr : Instr) (normal fp : Nat) : Option Nat :=
  if instr.typeId = .f64 then fpArgReg[fp]? else normalArgReg[normal]?

def normalAfter (instr : Instr) (normal : Nat) : Nat :=
  if instr.typeId = .f64 then normal else normal + 1

def fpAfter (instr : Instr) (fp : Nat) : Nat :=
  if instr.typeId = .f64 then fp + 1 else fp

variable {result : List LiveInterval}

/-- One parameter: it has a register and its place, and the others follow. -/
theorem funcArgIntervals_cons (hParameter : instr.opcode = .funcArg) :
    funcArgIntervals f (instr :: rest) i normal fp = .ok result ↔
      ∃ register others, parameterRegister instr normal fp = some register ∧ (0, 0) ∈ f.places ∧ (0, i) ∈ f.places ∧
        funcArgIntervals f rest (i + 1) (normalAfter instr normal) (fpAfter instr fp) = .ok others ∧
        result = parameterInterval f i register :: others := by
  rw [funcArgIntervals, if_neg (not_not.mpr hParameter)]
  dsimp only
  rw [← parameterRegister]
  cases parameterRegister instr normal fp with
  | none => simp [bind, Except.bind]
  | some register =>
    constructor
    · intro h
      obtain ⟨_, hRegister, h⟩ := bind_ok h
      obtain rfl := Except.ok.inj hRegister
      obtain ⟨_, hFirst, h⟩ := bind_ok h
      obtain ⟨_, hLast, h⟩ := bind_ok h
      obtain ⟨hZero, rfl⟩ := instrMapAt_ok hFirst
      obtain ⟨hHere, rfl⟩ := instrMapAt_ok hLast
      split at h
      case isTrue hType =>
        obtain ⟨others, hOthers, h⟩ := bind_ok h
        rw [normalAfter, fpAfter, if_pos hType, if_pos hType]
        exact ⟨_, others, rfl, hZero, hHere, hOthers, (Except.ok.inj h).symm⟩
      case isFalse hType =>
        obtain ⟨others, hOthers, h⟩ := bind_ok h
        rw [normalAfter, fpAfter, if_neg hType, if_neg hType]
        exact ⟨_, others, rfl, hZero, hHere, hOthers, (Except.ok.inj h).symm⟩
    · rintro ⟨_, others, hRegister, hZero, hHere, hOthers, rfl⟩
      obtain rfl := Option.some.inj hRegister
      simp only [instrMapAt, if_pos hZero, if_pos hHere, bind, Except.bind]
      rw [normalAfter, fpAfter] at hOthers
      split at hOthers
      case isTrue hType => rw [if_pos hType, hOthers]; rfl
      case isFalse hType => rw [if_neg hType, hOthers]; rfl

/-- What the parameters from number `i` on need when the first registers are taken. -/
structure FitFrom (f : Function) (rest : List Instr) (i normal fp : Nat) : Prop where
  places : ∀ k < (leadingParameters rest).length, (0, 0) ∈ f.places ∧ (0, i + k) ∈ f.places
  normal : (leadingParameters rest).countP (·.typeId ≠ .f64) + normal ≤ normalArgReg.length
  fp : (leadingParameters rest).countP (·.typeId = .f64) + fp ≤ fpArgReg.length

theorem fitFrom_of_none (hNone : leadingParameters rest = []) (hNormal : normal ≤ normalArgReg.length)
    (hFp : fp ≤ fpArgReg.length) : FitFrom f rest i normal fp := by
  refine ⟨?_, ?_, ?_⟩ <;> rw [hNone]
  · exact fun k hLt => absurd hLt (Nat.not_lt_zero k)
  · rwa [countP_nil, Nat.zero_add]
  · rwa [countP_nil, Nat.zero_add]

theorem countP_normal_cons (instr : Instr) (rest : List Instr) (normal : Nat) :
    (instr :: rest).countP (·.typeId ≠ .f64) + normal =
      rest.countP (·.typeId ≠ .f64) + normalAfter instr normal := by
  rw [normalAfter]
  split
  case isTrue hType => rw [countP_cons_of_neg (by simpa using hType)]
  case isFalse hType => rw [countP_cons_of_pos (by simpa using hType), Nat.add_right_comm, Nat.add_assoc]

theorem countP_fp_cons (instr : Instr) (rest : List Instr) (fp : Nat) :
    (instr :: rest).countP (·.typeId = .f64) + fp = rest.countP (·.typeId = .f64) + fpAfter instr fp := by
  rw [fpAfter]
  split
  case isTrue hType => rw [countP_cons_of_pos (by simpa using hType), Nat.add_right_comm, Nat.add_assoc]
  case isFalse hType => rw [countP_cons_of_neg (by simpa using hType)]

/-- A parameter finds a register as long as its class is not used up. -/
theorem parameterRegister_isSome (hNormal : normal ≤ normalArgReg.length) (hFp : fp ≤ fpArgReg.length) :
    (∃ register, parameterRegister instr normal fp = some register) ↔
      normalAfter instr normal ≤ normalArgReg.length ∧ fpAfter instr fp ≤ fpArgReg.length := by
  rw [parameterRegister, normalAfter, fpAfter, ← Option.isSome_iff_exists]
  split
  · rw [isSome_getElem?]
    exact ⟨fun hLt => ⟨hNormal, hLt⟩, And.right⟩
  · rw [isSome_getElem?]
    exact ⟨fun hLt => ⟨hLt, hFp⟩, And.left⟩

theorem fitFrom_cons (hParameter : instr.opcode = .funcArg) :
    FitFrom f (instr :: rest) i normal fp ↔ (0, 0) ∈ f.places ∧ (0, i) ∈ f.places ∧
      FitFrom f rest (i + 1) (normalAfter instr normal) (fpAfter instr fp) := by
  have hLeading := leadingParameters_cons rest hParameter
  have hNormalEq := countP_normal_cons instr (leadingParameters rest) normal
  have hFpEq := countP_fp_cons instr (leadingParameters rest) fp
  constructor
  · rintro ⟨hPlaces, hNormal, hFp⟩
    rw [hLeading] at hPlaces hNormal hFp
    refine ⟨(hPlaces 0 (Nat.succ_pos _)).1, (hPlaces 0 (Nat.succ_pos _)).2, ?_, hNormalEq ▸ hNormal, hFpEq ▸ hFp⟩
    intro k hLt
    rw [Nat.add_assoc, Nat.add_comm 1]
    exact hPlaces (k + 1) (Nat.succ_lt_succ hLt)
  · rintro ⟨hZero, hHere, hPlaces, hNormal, hFp⟩
    refine ⟨?_, ?_, ?_⟩
    · rw [hLeading]
      rintro (_ | k) hK
      · exact ⟨hZero, hHere⟩
      · rw [Nat.add_comm k, ← Nat.add_assoc]
        exact hPlaces k (Nat.lt_of_succ_lt_succ hK)
    · rw [hLeading, hNormalEq]
      exact hNormal
    · rw [hLeading, hFpEq]
      exact hFp

theorem funcArgIntervals_ok_iff (rest : List Instr) (hNormal : normal ≤ normalArgReg.length)
    (hFp : fp ≤ fpArgReg.length) :
    (∃ result, funcArgIntervals f rest i normal fp = .ok result) ↔ FitFrom f rest i normal fp := by
  induction rest generalizing i normal fp with
  | nil => exact ⟨fun _ => fitFrom_of_none rfl hNormal hFp, fun _ => ⟨[], rfl⟩⟩
  | cons instr rest ih =>
    by_cases hParameter : instr.opcode = .funcArg
    · constructor
      · rintro ⟨result, hResult⟩
        obtain ⟨register, others, hRegister, hZero, hHere, hOthers, -⟩ := (funcArgIntervals_cons hParameter).mp hResult
        obtain ⟨hNormal', hFp'⟩ := (parameterRegister_isSome hNormal hFp).mp ⟨register, hRegister⟩
        exact (fitFrom_cons hParameter).mpr ⟨hZero, hHere, (ih hNormal' hFp').mp ⟨others, hOthers⟩⟩
      · intro hFit
        obtain ⟨hZero, hHere, hRest⟩ := (fitFrom_cons hParameter).mp hFit
        have hNormal' := (Nat.le_add_left _ _).trans hRest.normal
        have hFp' := (Nat.le_add_left _ _).trans hRest.fp
        obtain ⟨register, hRegister⟩ := (parameterRegister_isSome hNormal hFp).mpr ⟨hNormal', hFp'⟩
        obtain ⟨others, hOthers⟩ := (ih hNormal' hFp').mpr hRest
        exact ⟨_, (funcArgIntervals_cons hParameter).mpr ⟨register, others, hRegister, hZero, hHere, hOthers, rfl⟩⟩
    · refine ⟨fun _ => fitFrom_of_none (leadingParameters_nil rest hParameter) hNormal hFp, fun _ => ⟨[], ?_⟩⟩
      rw [funcArgIntervals, if_pos hParameter]

theorem parametersFit_iff : ParametersFit f ↔ FitFrom f f.instrs 0 0 0 := by
  constructor
  · rintro ⟨hPlaces, hNormal, hFp⟩
    refine ⟨fun k hLt => ⟨hPlaces 0 (Nat.zero_lt_of_lt hLt), ?_⟩, hNormal, hFp⟩
    rw [Nat.zero_add]
    exact hPlaces k hLt
  · rintro ⟨hPlaces, hNormal, hFp⟩
    refine ⟨fun i hLt => ?_, hNormal, hFp⟩
    have hPlace := (hPlaces i hLt).2
    rwa [Nat.zero_add] at hPlace

theorem registersFrom_nodup (normal fp : Nat) : (normalArgReg.drop normal ++ fpArgReg.drop fp).Nodup := by
  have hAll : (normalArgReg ++ fpArgReg).Nodup := by decide
  exact hAll.sublist ((drop_sublist _ _).append (drop_sublist _ _))

theorem drop_of_getElem? {registers : List Nat} {n register : Nat} (h : registers[n]? = some register) :
    registers.drop n = register :: registers.drop (n + 1) := by
  obtain ⟨hLt, rfl⟩ := List.getElem?_eq_some_iff.mp h
  exact drop_eq_getElem_cons hLt

/-- The intervals of the parameters use the registers that are left, each at most once. -/
theorem funcArgIntervals_spec (rest : List Instr) (hResult : funcArgIntervals f rest i normal fp = .ok result) :
    (∀ interval ∈ result, ∃ k < (leadingParameters rest).length, (0, i + k) ∈ f.places ∧
      ∃ register ∈ normalArgReg.drop normal ++ fpArgReg.drop fp, interval = parameterInterval f (i + k) register) ∧
      result.Pairwise fun a b => a.owner ≠ b.owner := by
  induction rest generalizing i normal fp result with
  | nil =>
    obtain rfl := Except.ok.inj hResult
    exact ⟨fun _ hMem => absurd hMem not_mem_nil, List.Pairwise.nil⟩
  | cons instr rest ih =>
    by_cases hParameter : instr.opcode = .funcArg
    · obtain ⟨register, others, hRegister, -, hHere, hOthers, rfl⟩ := (funcArgIntervals_cons hParameter).mp hResult
      obtain ⟨hAll, hApart⟩ := ih hOthers
      rw [leadingParameters_cons rest hParameter]
      have hTaken : register ∈ normalArgReg.drop normal ++ fpArgReg.drop fp ∧
          (∀ r ∈ normalArgReg.drop (normalAfter instr normal) ++ fpArgReg.drop (fpAfter instr fp),
            r ∈ normalArgReg.drop normal ++ fpArgReg.drop fp ∧ r ≠ register) := by
        have hNodup := registersFrom_nodup normal fp
        rw [parameterRegister] at hRegister
        rw [normalAfter, fpAfter]
        split at hRegister
        case isTrue hType =>
          rw [drop_of_getElem? hRegister] at hNodup ⊢
          rw [if_pos hType, if_pos hType]
          obtain ⟨hFresh, -⟩ := nodup_cons.mp (nodup_middle.mp hNodup)
          refine ⟨mem_append_right _ mem_cons_self, fun r hR => ⟨?_, fun hEq => hFresh (hEq ▸ hR)⟩⟩
          exact (perm_middle.mem_iff).mpr (mem_cons_of_mem _ hR)
        case isFalse hType =>
          rw [drop_of_getElem? hRegister] at hNodup ⊢
          rw [if_neg hType, if_neg hType]
          obtain ⟨hFresh, -⟩ := nodup_cons.mp hNodup
          exact ⟨mem_cons_self, fun r hR => ⟨mem_cons_of_mem _ hR, fun hEq => hFresh (hEq ▸ hR)⟩⟩
      refine ⟨?_, pairwise_cons.mpr ⟨?_, hApart⟩⟩
      · rintro interval (_ | ⟨_, hMem⟩)
        · exact ⟨0, Nat.succ_pos _, hHere, register, hTaken.1, rfl⟩
        · obtain ⟨k, hLt, hPlace, r, hR, rfl⟩ := hAll interval hMem
          rw [Nat.add_assoc, Nat.add_comm 1] at hPlace ⊢
          exact ⟨k + 1, Nat.succ_lt_succ hLt, hPlace, r, (hTaken.2 r hR).1, rfl⟩
      · intro interval hMem hEq
        obtain ⟨k, -, -, r, hR, rfl⟩ := hAll interval hMem
        exact (hTaken.2 r hR).2 (Owner.precolored.inj hEq).symm
    · rw [funcArgIntervals, if_pos hParameter] at hResult
      obtain rfl := Except.ok.inj hResult
      exact ⟨fun _ hMem => absurd hMem not_mem_nil, List.Pairwise.nil⟩

end Parameters

end KushDB.Khir
