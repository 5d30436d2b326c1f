import KushDB.Skinner.Uct

/-! # Legal join orders

An order is built table by table. Whatever has been joined so far, a playout completes it to an order of all tables
that takes a connected table wherever there is one.
-/

namespace KushDB.Skinner

open List

section

variable (connections : Nat → Nat → Bool) (numTables : Nat)

/-- If a table not yet in the order is connected to the tables before a position, the table at the position is. -/
def Follows (order : List Nat) (pos : Nat) : Prop :=
  (∃ table, table < numTables ∧ table ∉ order.take pos ∧ isConnected connections (order.take pos) table = true) →
    isConnected connections (order.take pos) (order.getD pos 0) = true

structure LegalOrder (joined order : List Nat) : Prop where
  perm : order.Perm (List.range numTables)
  starts : joined <+: order
  follows : ∀ pos, joined.length < pos → pos < numTables → Follows connections numTables order pos

/-- Distinct tables, as they are joined on the way down to a node. -/
structure JoinedPath (path : List Nat) : Prop where
  nodup : path.Nodup
  lt : ∀ table ∈ path, table < numTables

/-- A complete order that begins with the path and follows the connections from there on. -/
structure Completes (start : Nat) (path order : List Nat) : Prop where
  perm : order.Perm (List.range numTables)
  starts : path <+: order
  follows : ∀ pos, start ≤ pos → path.length ≤ pos → pos < numTables → Follows connections numTables order pos

end

section

variable {connections : Nat → Nat → Bool} {numTables : Nat} {path order : List Nat} {table : Nat}

theorem isConnected_congr {left right : List Nat} (h : ∀ table, table ∈ left ↔ table ∈ right) (table : Nat) :
    isConnected connections left table = isConnected connections right table := by
  rw [Bool.eq_iff_iff, isConnected, isConnected, any_eq_true, any_eq_true]
  simp only [h]

theorem JoinedPath.length_le (h : JoinedPath numTables path) : path.length ≤ numTables := by
  have hSubset := h.nodup.subperm (fun table hTable => mem_range.mpr (h.lt table hTable))
  simpa using hSubset.length_le

theorem JoinedPath.concat (h : JoinedPath numTables path) (hLt : table < numTables) (hFresh : table ∉ path) :
    JoinedPath numTables (path ++ [table]) := by
  refine ⟨nodup_append.mpr ⟨h.nodup, pairwise_singleton _ table, ?_⟩, fun other hOther => ?_⟩
  · intro other hOther last hLast hEq
    rw [hEq, mem_singleton.mp hLast] at hOther
    exact hFresh hOther
  · rcases mem_append.mp hOther with hOld | hNew
    · exact h.lt other hOld
    · rwa [mem_singleton.mp hNew]

theorem JoinedPath.exists_fresh (hShort : path.length < numTables) : ∃ table < numTables, table ∉ path := by
  by_contra hNone
  push Not at hNone
  have hSubset := nodup_range.subperm (fun table hTable => hNone table (mem_range.mp hTable))
  have hLe := hSubset.length_le
  rw [length_range] at hLe
  omega

theorem concat_prefix_set (hStarts : path <+: order) (hShort : path.length < order.length) (table : Nat) :
    path ++ [table] <+: order.set path.length table := by
  obtain ⟨rest, rfl⟩ := hStarts
  cases rest with
  | nil => simp at hShort
  | cons first rest => exact ⟨rest, by simp⟩

theorem follows_of_concat (hStarts : path ++ [table] <+: order)
    (h : (∃ other, other < numTables ∧ other ∉ path ∧ isConnected connections path other = true) →
      isConnected connections path table = true) : Follows connections numTables order path.length := by
  obtain ⟨rest, rfl⟩ := hStarts
  simpa [Follows] using h

theorem completes_of_length (h : JoinedPath numTables path) (hStarts : path <+: order) (hLength : order.length = numTables)
    (hFull : path.length = numTables) (start : Nat) : Completes connections numTables start path order := by
  have hEq := hStarts.eq_of_length (hFull.trans hLength.symm)
  subst hEq
  refine ⟨(perm_ext_iff_of_nodup h.nodup nodup_range).mpr fun table => ?_, hStarts, fun pos _ hLe hLt => by omega⟩
  refine ⟨fun hTable => mem_range.mpr (h.lt table hTable), fun hTable => ?_⟩
  have hPerm := (h.nodup.subperm fun other hOther => mem_range.mpr (h.lt other hOther)).perm_of_length_le
    (by rw [length_range, hFull])
  exact hPerm.mem_iff.mpr hTable

/-- Completing a longer path completes the shorter one, if the step between them follows the connections. -/
theorem Completes.of_concat {start : Nat} (h : Completes connections numTables start (path ++ [table]) order)
    (hStep : start ≤ path.length →
      (∃ other, other < numTables ∧ other ∉ path ∧ isConnected connections path other = true) →
        isConnected connections path table = true) : Completes connections numTables start path order := by
  refine ⟨h.perm, (prefix_append path [table]).trans h.starts, fun pos hStart hLe hLt => ?_⟩
  rcases hLe.lt_or_eq with hBeyond | rfl
  · exact h.follows pos hStart (by rw [length_append, length_singleton]; exact hBeyond) hLt
  · exact follows_of_concat h.starts (hStep hStart)

/-! ## Playouts -/

section

variable {unjoined joined : List Nat} (hJoined : ∀ table, table ∈ joined ↔ table ∈ path)
  (hUnjoined : ∀ table, table < numTables → table ∉ path → table ∈ unjoined)
  (hRange : ∀ table ∈ unjoined, table < numTables)

include hJoined hUnjoined hRange

theorem nextTable_spec (hShort : path.length < numTables) :
    ∃ table, nextTable connections unjoined joined = some table ∧ table < numTables ∧ table ∉ path ∧
      ((∃ other, other < numTables ∧ other ∉ path ∧ isConnected connections path other = true) →
        isConnected connections path table = true) := by
  unfold nextTable
  cases hFind : unjoined.find? fun table => table ∉ joined ∧ isConnected connections joined table with
  | some table =>
    have hFound := find?_some hFind
    rw [decide_eq_true_eq, hJoined, isConnected_congr hJoined] at hFound
    exact ⟨table, rfl, hRange table (mem_of_find?_eq_some hFind), hFound.1, fun _ => hFound.2⟩
  | none =>
    -- No table that is left is connected, so any of them will do.
    obtain ⟨fresh, hLt, hFresh⟩ := JoinedPath.exists_fresh hShort
    cases hFirst : unjoined.find? fun table => table ∉ joined with
    | none =>
      have hNone := find?_eq_none.mp hFirst fresh (hUnjoined fresh hLt hFresh)
      simp [hJoined, hFresh] at hNone
    | some table =>
      have hFound := find?_some hFirst
      rw [decide_eq_true_eq, hJoined] at hFound
      refine ⟨table, rfl, hRange table (mem_of_find?_eq_some hFirst), hFound, ?_⟩
      rintro ⟨other, hOther, hNew, hConnected⟩
      have hNone := find?_eq_none.mp hFind other (hUnjoined other hOther hNew)
      rw [decide_eq_true_eq, hJoined, isConnected_congr hJoined] at hNone
      exact absurd ⟨hNew, hConnected⟩ hNone

end

theorem playoutLoop_completes {unjoined joined : List Nat} (hPath : JoinedPath numTables path)
    (hJoined : ∀ table, table ∈ joined ↔ table ∈ path)
    (hUnjoined : ∀ table, table < numTables → table ∉ path → table ∈ unjoined)
    (hRange : ∀ table ∈ unjoined, table < numTables) (hStarts : path <+: order) (hLength : order.length = numTables)
    {remaining : Nat} (hRemaining : path.length + remaining = numTables) (start : Nat) :
    Completes connections numTables start path
      (playoutLoop connections unjoined remaining path.length joined order) := by
  induction remaining generalizing path joined order with
  | zero => exact completes_of_length hPath hStarts hLength hRemaining start
  | succ remaining ih =>
    obtain ⟨table, hNext, hLt, hFresh, hConnected⟩ := @nextTable_spec connections numTables path unjoined joined hJoined
      hUnjoined hRange (by omega)
    simp only [playoutLoop, hNext]
    have hInsert : ∀ other, other ∈ joined.insert table ↔ other ∈ path ++ [table] := fun other => by
      simp [hJoined, or_comm]
    have hStep := ih (hPath.concat hLt hFresh) hInsert
      (fun other hOther hNew => hUnjoined other hOther fun hOld => hNew (mem_append_left _ hOld))
      (concat_prefix_set hStarts (by omega) table) (by simpa using hLength)
      (by rw [length_append, length_singleton]; omega)
    rw [length_append, length_singleton] at hStep
    exact hStep.of_concat fun _ => hConnected

end

end KushDB.Skinner
