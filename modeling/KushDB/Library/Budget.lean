import KushDB.Library.Loops
import Mathlib.Data.List.Induction

/-! # Running nested loops on a budget

Every visit costs one unit. A run that still has budget after a visit goes on, and hands the current rows
out when the visit was an accepted one of the innermost level; the visit that uses up the budget stops the run.
-/

namespace KushDB.Loops

open List

/-- The rows last stored for each level, the level a run stopped at, and what was handed out. -/
structure Cursor (T O : Type) where
  idx : T → Int
  stopped : T
  out : O

section

variable {T O : Type} [DecidableEq T] (emit : (T → Int) → O → O)

/-- The stored rows after a visit that leaves budget. A skipped level stores nothing. -/
def Visit.stored (visit : Visit T) (idx : T → Int) : T → Int :=
  if visit.verdict = .skipped then idx else Function.update idx visit.name visit.row

def Visit.hands {T : Type} (visit : Visit T) : Bool := visit.verdict = .accepted ∧ visit.leaf = true

def Cursor.pass (cursor : Cursor T O) (visit : Visit T) : Cursor T O :=
  { cursor with
    idx := visit.stored cursor.idx
    out := if visit.hands then emit (visit.stored cursor.idx) cursor.out else cursor.out }

def Cursor.stop (cursor : Cursor T O) (visit : Visit T) : Cursor T O :=
  { cursor with idx := Function.update cursor.idx visit.name visit.row, stopped := visit.name }

def Verdict.status : Verdict → Int
  | .accepted => -2
  | _ => -1

def consume : Int → List (Visit T) → Cursor T O → Int × Cursor T O
  | budget, [], cursor => (budget, cursor)
  | budget, visit :: visits, cursor =>
    if budget - 1 = 0 then (visit.verdict.status, cursor.stop visit)
    else consume (budget - 1) visits (cursor.pass emit visit)

variable {emit}

theorem consume_result {budget : Int} (hBudget : 1 ≤ budget) (visits : List (Visit T)) (cursor : Cursor T O) :
    (consume emit budget visits cursor).1 < 0 ∨ 1 ≤ (consume emit budget visits cursor).1 := by
  induction visits generalizing budget cursor with
  | nil => exact Or.inr hBudget
  | cons visit visits ih =>
    rw [consume]
    split
    · left
      cases visit.verdict <;> simp [Verdict.status]
    · exact ih (by omega) _

variable {budget : Int}

theorem consume_append (hBudget : 1 ≤ budget) (left right : List (Visit T)) (cursor : Cursor T O) :
    consume emit budget (left ++ right) cursor =
      if (consume emit budget left cursor).1 < 0 then consume emit budget left cursor
      else consume emit (consume emit budget left cursor).1 right (consume emit budget left cursor).2 := by
  induction left generalizing budget cursor with
  | nil =>
    rw [nil_append, consume, if_neg (by simpa using (show (0 : Int) ≤ budget by omega))]
  | cons visit visits ih =>
    simp only [cons_append, consume]
    split
    · rw [if_pos]
      cases visit.verdict <;> simp [Verdict.status]
    · exact ih (by omega) _

theorem consume_map_under (budget row : Int) (visits : List (Visit T)) (cursor : Cursor T O) :
    consume emit budget (visits.map (Visit.under row)) cursor = consume emit budget visits cursor := by
  induction visits generalizing budget cursor with
  | nil => rfl
  | cons visit visits ih =>
    simp only [map_cons, consume]
    rw [ih]
    rfl

theorem consume_rowVisits_false (budget : Int) (name : T) (leaf : Bool) (row : Int) (inner : List (Visit T))
    (cursor : Cursor T O) :
    consume emit budget (rowVisits name leaf false row inner) cursor =
      if budget - 1 = 0 then (-1, cursor.stop ⟨name, row, [row], .rejected, leaf⟩)
      else (budget - 1, cursor.pass emit ⟨name, row, [row], .rejected, leaf⟩) := rfl

theorem consume_rowVisits_true (budget : Int) (name : T) (leaf : Bool) (row : Int) (inner : List (Visit T))
    (cursor : Cursor T O) :
    consume emit budget (rowVisits name leaf true row inner) cursor =
      if budget - 1 = 0 then (-2, cursor.stop ⟨name, row, [row], .accepted, leaf⟩)
      else consume emit (budget - 1) inner (cursor.pass emit ⟨name, row, [row], .accepted, leaf⟩) := by
  rw [← consume_map_under (budget - 1) row]
  rfl

variable {visits : List (Visit T)}

/-- A run whose budget exceeds the number of visits makes all of them. -/
theorem consume_of_length_lt (h : visits.length < budget) (cursor : Cursor T O) :
    consume emit budget visits cursor =
      (budget - visits.length, visits.foldl (Cursor.pass emit) cursor) := by
  induction visits generalizing budget cursor with
  | nil => simp [consume]
  | cons visit visits ih =>
    simp only [length_cons, Nat.cast_add, Nat.cast_one] at h ⊢
    rw [consume, if_neg (by omega), ih (by omega)]
    simp only [foldl_cons, Prod.mk.injEq, and_true]
    omega

/-- Otherwise it stops at the visit whose number is the budget. -/
theorem consume_of_stop {before after : List (Visit T)} {visit : Visit T} (h : budget = before.length + 1)
    (cursor : Cursor T O) :
    consume emit budget (before ++ visit :: after) cursor =
      (visit.verdict.status, (before.foldl (Cursor.pass emit) cursor).stop visit) := by
  induction before generalizing budget cursor with
  | nil =>
    simp only [length_nil, Nat.cast_zero] at h
    rw [nil_append, consume, if_pos (by omega)]
    rfl
  | cons first before ih =>
    simp only [length_cons, Nat.cast_add, Nat.cast_one] at h
    rw [cons_append, consume, if_neg (by omega), ih (by omega)]
    rfl

omit [DecidableEq T] in
theorem exists_stop (hBudget : 1 ≤ budget) (h : budget ≤ visits.length) :
    ∃ before visit after, visits = before ++ visit :: after ∧ budget = before.length + 1 := by
  have hLt : (budget - 1).toNat < visits.length := by omega
  refine ⟨visits.take (budget - 1).toNat, visits[(budget - 1).toNat], visits.drop ((budget - 1).toNat + 1), ?_, ?_⟩
  · rw [← drop_eq_getElem_cons hLt, take_append_drop]
  · rw [length_take]
    omega

end

section

variable {T O : Type} [DecidableEq T] {emit : (T → Int) → O → O} {levels : List (Level T)}
  {rows : List Int → Option (List Int)} {accepts : List Int → Bool} {resume : Bool}

variable {visit : Visit T}

omit [DecidableEq T] in
theorem name_mem (h : visit ∈ trace levels rows accepts resume) : visit.name ∈ levels.map Level.name := by
  induction levels generalizing rows accepts resume visit with
  | nil => cases h
  | cons level levels ih =>
    rcases mem_trace_cons.mp h with ⟨_, rfl⟩ | ⟨_, _, _, _, _, ⟨_, rfl⟩ | ⟨_, rfl⟩ | ⟨_, below, hBelow, rfl⟩⟩
    · exact mem_cons_self
    · exact mem_cons_self
    · exact mem_cons_self
    · have hName : below.name ∈ levels.map Level.name := ih hBelow
      exact mem_cons_of_mem level.name hName

theorem foldl_pass_stopped (emit : (T → Int) → O → O) (visits : List (Visit T)) (cursor : Cursor T O) :
    (visits.foldl (Cursor.pass emit) cursor).stopped = cursor.stopped := by
  induction visits generalizing cursor with
  | nil => rfl
  | cons visit visits ih => exact ih _

variable {name : T} {after before : List (Visit T)}

theorem pass_idx_of_ne (h : visit.name ≠ name) (cursor : Cursor T O) :
    (cursor.pass emit visit).idx name = cursor.idx name := by
  simp only [Cursor.pass, Visit.stored]
  split
  · rfl
  · exact Function.update_of_ne h.symm _ _

theorem foldl_pass_idx_of_ne {visits : List (Visit T)} (h : ∀ visit ∈ visits, visit.name ≠ name) (cursor : Cursor T O) :
    (visits.foldl (Cursor.pass emit) cursor).idx name = cursor.idx name := by
  induction visits generalizing cursor with
  | nil => rfl
  | cons visit visits ih =>
    rw [foldl_cons, ih (fun other hOther => h other (mem_cons_of_mem _ hOther)),
      pass_idx_of_ne (h visit mem_cons_self)]

theorem foldl_pass_under (row : Int) (visits : List (Visit T)) (cursor : Cursor T O) :
    (visits.map (Visit.under row)).foldl (Cursor.pass emit) cursor = visits.foldl (Cursor.pass emit) cursor := by
  induction visits generalizing cursor with
  | nil => rfl
  | cons visit visits ih => exact ih _

/-- At every visit the stored rows of the levels above it, and its own, are its path. -/
theorem idx_eq_path (emit : (T → Int) → O → O) (hNames : (levels.map Level.name).Nodup)
    (h : trace levels rows accepts resume = before ++ visit :: after) (cursor : Cursor T O) :
    ((levels.map Level.name).take visit.path.length).map
      (Function.update (before.foldl (Cursor.pass emit) cursor).idx visit.name visit.row) = visit.path := by
  induction levels generalizing rows accepts resume before visit after cursor with
  | nil => simp [trace] at h
  | cons level levels ih =>
    obtain ⟨hFresh, hNames⟩ := nodup_cons.mp hNames
    rw [trace] at h
    cases hRows : rows [] with
    | none =>
      rw [hRows] at h
      simp only [singleton_eq_append_iff, List.cons.injEq, reduceCtorEq, and_false, or_false] at h
      obtain ⟨rfl, rfl, rfl⟩ := h
      simp
    | some found =>
      rw [hRows] at h
      simp only at h
      generalize found.filter (fun row => level.start resume ≤ row) = visited at h
      -- The rows of this level go by one after the other; each brings its own block of visits.
      induction visited generalizing before cursor with
      | nil => simp at h
      | cons row visited ihRows =>
        rw [flatMap_cons] at h
        rcases append_eq_append_iff.mp h with ⟨later, hBefore, hLater⟩ | ⟨later, hBlock, hLater⟩
        · rw [hBefore, foldl_append]
          exact ihRows _ hLater
        · cases later with
          | nil =>
            rw [append_nil] at hBlock
            rw [← hBlock]
            exact @ihRows [] _ (by simpa using hLater.symm)
          | cons first later =>
            obtain ⟨rfl, _⟩ := List.cons.inj hLater
            unfold rowVisits at hBlock
            split at hBlock
            · cases before with
              | nil =>
                obtain ⟨rfl, _⟩ := List.cons.inj hBlock
                simp
              | cons head before =>
                obtain ⟨rfl, hBelow⟩ := List.cons.inj hBlock
                obtain ⟨below, rest, hTrace, rfl, hRest⟩ := map_eq_append_iff.mp hBelow
                obtain ⟨inner, after', rfl, rfl, _⟩ := map_eq_cons_iff.mp hRest
                have hOuter : ∀ other ∈ below ++ [inner], other.name ≠ level.name := by
                  intro other hOther hEq
                  have hMem : other ∈ below ++ inner :: after' := by
                    simp only [mem_append, mem_cons, not_mem_nil, or_false] at hOther ⊢
                    tauto
                  exact hFresh (hEq ▸ name_mem (hTrace ▸ hMem))
                rw [foldl_cons, foldl_pass_under]
                have hInner := ih hNames hTrace
                  (cursor.pass emit ⟨level.name, row, [row], .accepted, levels.isEmpty⟩)
                simp only [Visit.under, length_cons, map_cons, take_succ_cons]
                refine congrArg₂ List.cons ?_ hInner
                rw [Function.update_of_ne (hOuter inner (by simp)).symm, foldl_pass_idx_of_ne
                  (fun other hOther => hOuter other (mem_append_left _ hOther))]
                simp [Cursor.pass, Visit.stored]
            · cases before with
              | nil =>
                obtain ⟨rfl, _⟩ := List.cons.inj hBlock
                simp
              | cons head before => simp at hBlock

/-- A run that makes all visits leaves the outermost level at its last row. -/
theorem idx_of_whole {level : Level T} (emit : (T → Int) → O → O)
    (hNames : ((level :: levels).map Level.name).Nodup) {found : List Int} {last : Int}
    (hRows : rows [] = some (found ++ [last])) (hStart : level.start resume ≤ last) (cursor : Cursor T O) :
    ((trace (level :: levels) rows accepts resume).foldl (Cursor.pass emit) cursor).idx level.name = last := by
  obtain ⟨hFresh, _⟩ := nodup_cons.mp hNames
  rw [trace, hRows]
  simp only [filter_append, filter_cons, decide_eq_true hStart, if_true, filter_nil, flatMap_append,
    foldl_append, flatMap_cons, flatMap_nil, append_nil]
  unfold rowVisits
  split
  · rw [foldl_cons, foldl_pass_under, foldl_pass_idx_of_ne]
    · simp [Cursor.pass, Visit.stored]
    · exact fun visit hVisit hEq => hFresh (hEq ▸ name_mem hVisit)
  · simp [Cursor.pass, Visit.stored]

/-- The rows handed out along a sequence of visits, in order. -/
def handed : List (Visit T) → (T → Int) → List (T → Int)
  | [], _ => []
  | visit :: visits, idx =>
    (if visit.hands then [visit.stored idx] else []) ++ handed visits (visit.stored idx)

theorem foldl_pass_out (visits : List (Visit T)) (cursor : Cursor T O) :
    (visits.foldl (Cursor.pass emit) cursor).out =
      (handed visits cursor.idx).foldl (fun out tuple => emit tuple out) cursor.out := by
  induction visits generalizing cursor with
  | nil => rfl
  | cons visit visits ih =>
    rw [foldl_cons, ih, handed, foldl_append]
    cases hHands : visit.hands <;> simp [Cursor.pass, hHands]

theorem handed_append (emit : (T → Int) → O → O) (left right : List (Visit T)) (cursor : Cursor T O) :
    handed (left ++ right) cursor.idx =
      handed left cursor.idx ++ handed right (left.foldl (Cursor.pass emit) cursor).idx := by
  induction left generalizing cursor with
  | nil => rfl
  | cons visit left ih =>
    rw [cons_append, handed, handed, append_assoc]
    exact congrArg _ (ih (cursor.pass emit visit))

/-- What is handed out on the way are the paths of the accepted innermost visits. -/
theorem handed_paths (hNames : (levels.map Level.name).Nodup) (h : trace levels rows accepts resume = before ++ after)
    (idx : T → Int) :
    (handed before idx).map (fun tuple => (levels.map Level.name).map tuple) =
      (before.filter Visit.hands).map Visit.path := by
  induction before using List.reverseRecOn generalizing after with
  | nil => rfl
  | append_singleton before visit ih =>
    rw [append_assoc] at h
    have hMem : visit ∈ trace levels rows accepts resume := by rw [h]; simp
    let cursor : Cursor T Unit := ⟨idx, visit.name, ()⟩
    have hPath := idx_eq_path (fun _ out => out) hNames h cursor
    rw [handed_append (fun _ out => out) before [visit] cursor, map_append, ih h, filter_append,
      map_append]
    congr 1
    cases hHands : visit.hands with
    | false => simp [handed, hHands]
    | true =>
      obtain ⟨hVerdict, hLeaf⟩ : visit.verdict = .accepted ∧ visit.leaf = true := by simpa [Visit.hands] using hHands
      rw [(leaf_iff hMem).mp hLeaf, ← length_map Level.name, take_length] at hPath
      simpa [handed, hHands, Visit.stored, hVerdict] using hPath

end

end KushDB.Loops
