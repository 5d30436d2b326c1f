import KushDB.Skinner.Flags

/-! # The progress of a join

`JoinState` remembers how far the episodes got: an offset for every table, below which its rows are done with
altogether, and a tree of last completed tuples that join orders with a common prefix share.
Vectors indexed by table are listed here along the join order they belong to.
-/

namespace KushDB.Skinner

open Odometer List

inductive ProgressTree (n : Nat)
  | null
  | node (lastCompletedTuple : Int) (childNodes : Fin n → ProgressTree n)

/-- `root` are the child nodes of the root, which has no tuple of its own. -/
structure JoinState (n : Nat) where
  finished : Bool
  root : Fin n → ProgressTree n
  offset : Fin n → Int

section

variable {n : Nat}

def JoinState.initial : JoinState n := ⟨false, fun _ => .null, fun _ => -1⟩

/-- The tuples stored along a list of tables, as far as there are nodes. -/
def along : (Fin n → ProgressTree n) → List (Fin n) → List Int
  | _, [] => []
  | nodes, table :: tables =>
    match nodes table with
    | .null => []
    | .node lastCompletedTuple childNodes => lastCompletedTuple :: along childNodes tables

/-- A full path is the last completed tuple itself. Below a node that another order has left, everything
up to the tuple before it is completed. -/
def JoinState.getLastCompletedTupleIdx (state : JoinState n) (cardinality : Fin n → Int) (order : List (Fin n)) :
    Option (List Int) :=
  let stored := along state.root order
  if stored.length = order.length then some stored
  else if stored.isEmpty then none
  else
    let (lastCompletedTuple, nothing) := back (order.map cardinality) (low (order.map cardinality) stored)
    if nothing then none else some lastCompletedTuple

/-- New nodes for the rest of an order. -/
def graft : List (Fin n × Int) → (Fin n → ProgressTree n) → Fin n → ProgressTree n
  | [], nodes => nodes
  | (table, lastCompletedTuple) :: rest, nodes =>
    Function.update nodes table (.node lastCompletedTuple (graft rest fun _ => .null))

def updateTree : List (Fin n × Int) → (Fin n → ProgressTree n) → Except JoinError (Fin n → ProgressTree n)
  | [], nodes => .ok nodes
  | (table, lastCompletedTuple) :: rest, nodes =>
    match nodes table with
    | .null => .ok (graft ((table, lastCompletedTuple) :: rest) nodes)
    | .node stored childNodes =>
      if lastCompletedTuple < stored then .error .negativeProgress
      -- The node is moved forward, and what other orders stored below it is dropped.
      else if stored < lastCompletedTuple then
        .ok (Function.update nodes table (.node lastCompletedTuple (graft rest fun _ => .null)))
      else (updateTree rest childNodes).map fun childNodes => Function.update nodes table (.node stored childNodes)

def isJoinCompleted (cardinality : Fin n → Int) (path : List (Fin n × Int)) : Bool :=
  path.all fun (table, lastCompletedTuple) => lastCompletedTuple == cardinality table - 1

/-- The first table is done up to its last completed row, or the row before if the other tables
have not been run through for it. -/
def updateOffset (cardinality : Fin n → Int) (offset : Fin n → Int) : List (Fin n × Int) → Fin n → Int
  | [] => offset
  | (firstTable, lastFinishedTuple) :: rest =>
    let lastFinishedTuple := if isJoinCompleted cardinality rest then lastFinishedTuple else lastFinishedTuple - 1
    Function.update offset firstTable (max lastFinishedTuple (offset firstTable))

def JoinState.update (state : JoinState n) (cardinality : Fin n → Int) (order : List (Fin n))
    (lastCompletedTuple : List Int) : Except JoinError (JoinState n) :=
  let path := order.zip lastCompletedTuple
  if state.finished then .error .alreadyDone
  else if isJoinCompleted cardinality path then .ok { state with finished := true }
  else (updateTree path state.root).map fun root =>
    { state with root := root, offset := updateOffset cardinality state.offset path }

end

/-! ## What an update does to the paths of the tree -/

section

variable {n : Nat}

theorem along_length_le (nodes : Fin n → ProgressTree n) (tables : List (Fin n)) :
    (along nodes tables).length ≤ tables.length := by
  fun_induction along nodes tables with
  | case1 => rfl
  | case2 => simp
  | case3 nodes table tables _ _ _ ih => simpa using ih

theorem along_null (tables : List (Fin n)) : along (fun _ => .null) tables = [] := by
  cases tables <;> rfl

theorem along_take (nodes : Fin n → ProgressTree n) (tables : List (Fin n)) (m : Nat) :
    along nodes (tables.take m) = (along nodes tables).take m := by
  induction tables generalizing nodes m with
  | nil => simp [along]
  | cons table tables ih =>
    cases m with
    | zero => simp [along]
    | succ m =>
      rw [take_succ_cons, along, along]
      cases nodes table with
      | null => rfl
      | node stored childNodes => exact congrArg _ (ih childNodes m)

variable {order : List (Fin n)} {values : List Int} {nodes updated : Fin n → ProgressTree n}

theorem along_graft_null (hLength : order.length = values.length) (tables : List (Fin n)) :
    ∃ m, tables.take m = order.take m ∧
      along (graft (order.zip values) fun _ => .null) tables = values.take m := by
  induction order generalizing values tables with
  | nil => exact ⟨0, by simp, by simp [graft, along_null]⟩
  | cons table order ih =>
    cases values with
    | nil => cases hLength
    | cons value values =>
      cases tables with
      | nil => exact ⟨0, by simp, by simp [along]⟩
      | cons other tables =>
        rw [zip_cons_cons, graft, along]
        by_cases hSame : other = table
        · subst hSame
          obtain ⟨m, hTake, hAlong⟩ := ih (by simpa using hLength) tables
          exact ⟨m + 1, by simp [hTake], by simp [hAlong]⟩
        · exact ⟨0, by simp, by simp [Function.update_of_ne hSame]⟩

theorem along_graft_self (hLength : order.length = values.length) (nodes : Fin n → ProgressTree n) :
    along (graft (order.zip values) nodes) order = values := by
  induction order generalizing values nodes with
  | nil => simp [along, length_eq_zero_iff.mp hLength.symm]
  | cons table order ih =>
    cases values with
    | nil => cases hLength
    | cons value values => simp [graft, along, ih (show order.length = values.length by simpa using hLength)]

/-- All an update that does not throw can do at a table. -/
theorem updateTree_cons {table : Fin n} {value : Int} {rest : List (Fin n × Int)}
    (h : updateTree ((table, value) :: rest) nodes = .ok updated) :
    (updated = Function.update nodes table (.node value (graft rest fun _ => .null)) ∧
      ∀ stored childNodes, nodes table = .node stored childNodes → stored < value) ∨
    ∃ childNodes inner, nodes table = .node value childNodes ∧ updateTree rest childNodes = .ok inner ∧
      updated = Function.update nodes table (.node value inner) := by
  rw [updateTree] at h
  cases hNode : nodes table with
  | null =>
    simp only [hNode] at h
    cases h
    exact Or.inl ⟨rfl, fun _ _ hEq => by cases hEq⟩
  | node stored childNodes =>
    simp only [hNode] at h
    split at h
    · cases h
    · split at h
      · rename_i hLt
        cases h
        exact Or.inl ⟨rfl, fun _ _ hEq => by cases hEq; exact hLt⟩
      · cases hInner : updateTree rest childNodes with
        | error error => simp [hInner, Except.map] at h
        | ok inner =>
          simp only [hInner, Except.map, Except.ok.injEq] at h
          obtain rfl : stored = value := by omega
          exact Or.inr ⟨childNodes, inner, rfl, hInner, h.symm⟩

/-- An update stores the whole tuple along its own order. -/
theorem along_updateTree_self (hLength : order.length = values.length)
    (h : updateTree (order.zip values) nodes = .ok updated) : along updated order = values := by
  induction order generalizing values nodes updated with
  | nil => simp [along, length_eq_zero_iff.mp hLength.symm]
  | cons table order ih =>
    cases values with
    | nil => cases hLength
    | cons value values =>
      have hRest : order.length = values.length := by simpa using hLength
      rw [zip_cons_cons] at h
      rcases updateTree_cons h with ⟨rfl, _⟩ | ⟨childNodes, inner, _, hInner, rfl⟩
      · simp [along, along_graft_self hRest]
      · simp [along, ih hRest hInner]

/-- Along any other list of tables an update changes nothing, or it leaves the tuple on the common tables,
which is never less than what was stored. -/
theorem along_updateTree (hLength : order.length = values.length)
    (h : updateTree (order.zip values) nodes = .ok updated) (tables : List (Fin n)) :
    along updated tables = along nodes tables ∨
      ∃ m, tables.take m = order.take m ∧ along updated tables = values.take m ∧
        along nodes tables ≤ values.take m := by
  induction order generalizing values nodes updated tables with
  | nil =>
    cases h
    exact Or.inl rfl
  | cons table order ih =>
    cases values with
    | nil => cases hLength
    | cons value values =>
      have hRest : order.length = values.length := by simpa using hLength
      rw [zip_cons_cons] at h
      cases tables with
      | nil => exact Or.inl (by simp [along])
      | cons other tables =>
        by_cases hSame : other = table
        · subst hSame
          rcases updateTree_cons h with ⟨rfl, hStored⟩ | ⟨childNodes, inner, hNode, hInner, rfl⟩
          · obtain ⟨m, hTake, hGraft⟩ := along_graft_null hRest tables
            refine Or.inr ⟨m + 1, by simp [hTake], by simp [along, hGraft], ?_⟩
            rw [along]
            cases hNode : nodes other with
            | null => exact prefix_le nil_prefix
            | node stored childNodes => exact cons_le_cons_iff.mpr (Or.inl (hStored stored childNodes hNode))
          · rcases ih hRest hInner tables with hKept | ⟨m, hTake, hAlong, hLe⟩
            · exact Or.inl (by simp [along, hNode, hKept])
            · refine Or.inr ⟨m + 1, by simp [hTake], by simp [along, hAlong], ?_⟩
              simp only [along, hNode, take_succ_cons]
              exact cons_le_cons_iff.mpr (Or.inr ⟨rfl, hLe⟩)
        · left
          rcases updateTree_cons h with ⟨rfl, _⟩ | ⟨childNodes, inner, _, _, rfl⟩ <;>
            simp [along, Function.update_of_ne hSame]

/-- The update throws exactly if the new tuple lies below what is stored along the order. -/
theorem updateTree_ok_iff (hLength : order.length = values.length) (nodes : Fin n → ProgressTree n) :
    (∃ updated, updateTree (order.zip values) nodes = .ok updated) ↔ along nodes order ≤ values := by
  induction order generalizing values nodes with
  | nil => simp [updateTree, along, length_eq_zero_iff.mp hLength.symm]
  | cons table order ih =>
    cases values with
    | nil => cases hLength
    | cons value values =>
      have ih := fun childNodes => ih (show order.length = values.length by simpa using hLength) childNodes
      rw [zip_cons_cons, updateTree, along]
      cases hNode : nodes table with
      | null => simpa using prefix_le nil_prefix
      | node stored childNodes =>
        simp only [cons_le_cons_iff, ← ih]
        rcases lt_trichotomy value stored with hLt | rfl | hGt
        · simp [hLt, hLt.not_gt, hLt.ne']
        · cases updateTree (order.zip values) childNodes <;> simp [Except.map]
        · simp [hGt, hGt.not_gt]

end

end KushDB.Skinner
