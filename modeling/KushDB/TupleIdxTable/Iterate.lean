import KushDB.TupleIdxTable.Insert

/-! # Iteration over the radix tree

The keys that an iterator still has to visit are those below the later children of the nodes on its stack, the topmost
node first. A call moves to the first of these keys and leaves the others, so the calls visit the keys of the tree in
their order.
-/

namespace KushDB.TupleIdxTable

open List

inductive Pending (length : Nat) : List (Node × Option Nat) → List Key → Prop
  | nil : Pending length [] []
  | cons {path compressed : List Byte} {children : Children Node} (pos : Option Nat) {stack : List (Node × Option Nat)}
    {keys : List Key} (keysOf : Byte → List Key) (hWell : children.WellFormed) (hNonempty : children.toList ≠ [])
    (hChildren : ∀ entry ∈ children.toList, Holds length (path ++ compressed ++ [entry.1]) entry.2 (keysOf entry.1))
    (hStack : Pending length stack keys) :
    Pending length ((.inner compressed children, pos) :: stack)
      (((children.childrenFrom (Children.following pos)).flatMap fun entry => keysOf entry.1) ++ keys)

/-- The state of an iterator that is at the key and has the keys `rest` still to visit. -/
def Moved (length : Nat) (stack : List (Node × Option Nat)) (keys : List Key) (key : Key) (rest : List Key) : Prop :=
  keys = key :: rest ∧ Pending length stack rest

variable {keys : List Key} {length : Nat} {stack : List (Node × Option Nat)}
variable {node : Node} {others : List Key} {path : List Byte}

theorem beginImpl_spec (h : Holds length path node keys) (current : Option Key) (hStack : Pending length stack others) :
    ∃ key rest after, Moved length after (keys ++ others) key rest ∧ ∀ fuel, length < path.length + fuel →
      beginImpl fuel { node := current, stack } node = some { node := some key, stack := after } := by
  induction h generalizing stack others with
  | @leaf path key hPath hFits =>
    refine ⟨key, others, stack, ⟨rfl, hStack⟩, fun fuel hFuel => ?_⟩
    have hLength := hFits.length_path hPath
    obtain ⟨fuel, rfl⟩ := Nat.exists_eq_add_one_of_ne_zero (show fuel ≠ 0 by omega)
    rfl
  | @inner path compressed children keysOf hWell hNonempty hChildren ih =>
    obtain ⟨first, entry, hFirst, hChild, hMem, hList⟩ := Children.firstPos_spec hWell hNonempty
    obtain ⟨key, rest, after, hMoved, hBegin⟩ := ih entry hMem
      (Pending.cons (some first) keysOf hWell hNonempty hChildren hStack)
    refine ⟨key, rest, after, ?_, fun fuel hFuel => ?_⟩
    · rw [hList, flatMap_cons, append_assoc]
      exact hMoved
    · have hLength := Holds.length_inner hNonempty hChildren
      rw [length_append] at hLength
      obtain ⟨fuel, rfl⟩ := Nat.exists_eq_add_one_of_ne_zero (show fuel ≠ 0 by omega)
      rw [beginImpl, hFirst]
      simp only [Option.bind_eq_bind, Option.bind_some, hChild]
      refine hBegin fuel ?_
      simp only [length_append, length_singleton]
      omega

/-- The loop finds the key `key`, with every large enough number of steps. -/
def Finds (length : Nat) (stack : List (Node × Option Nat)) (keys : List Key) : Prop :=
  ∃ key rest after, Moved length after keys key rest ∧ ∃ steps, ∀ fuel ≥ steps, ∀ current,
    nextLoop fuel { node := current, stack } = some ({ node := some key, stack := (.leaf key, none) :: after }, true)

theorem Finds.step {length : Nat} {compressed : List Byte} {children : Children Node} {pos : Option Nat} {next : Nat}
    {child : Node} {stack : List (Node × Option Nat)} {keys : List Key} (hNext : children.getNextPos pos = some next)
    (hChild : children.getChild next = some child)
    (h : Finds length ((child, none) :: (.inner compressed children, some next) :: stack) keys) :
    Finds length ((.inner compressed children, pos) :: stack) keys := by
  obtain ⟨key, rest, after, hMoved, steps, hSteps⟩ := h
  refine ⟨key, rest, after, hMoved, steps + 1, fun fuel hFuel current => ?_⟩
  obtain ⟨fuel, rfl⟩ := Nat.exists_eq_add_one_of_ne_zero (show fuel ≠ 0 by omega)
  rw [nextLoop]
  simp only [hNext, hChild, Option.bind_eq_bind, Option.bind_some]
  exact hSteps fuel (by omega) current

theorem finds_child (h : Holds length path node keys) (hStack : Pending length stack others) :
    Finds length ((node, none) :: stack) (keys ++ others) := by
  induction h generalizing stack others with
  | @leaf path key hPath hFits =>
    refine ⟨key, others, stack, ⟨rfl, hStack⟩, 1, fun fuel hFuel current => ?_⟩
    obtain ⟨fuel, rfl⟩ := Nat.exists_eq_add_one_of_ne_zero (show fuel ≠ 0 by omega)
    rfl
  | @inner path compressed children keysOf hWell hNonempty hChildren ih =>
    obtain ⟨first, entry, hFirst, hChild, hMem, hList⟩ := Children.firstPos_spec hWell hNonempty
    rw [Children.firstPos_eq] at hFirst
    refine Finds.step hFirst hChild ?_
    have hFinds := ih entry hMem (Pending.cons (some first) keysOf hWell hNonempty hChildren hStack)
    rw [hList, flatMap_cons, append_assoc]
    exact hFinds

/-- The loop runs to the root and finds no further key. -/
def Ends (stack : List (Node × Option Nat)) : Prop :=
  ∃ steps, ∀ fuel ≥ steps, ∀ current, nextLoop fuel { node := current, stack } = some ({ node := current, stack := [] }, false)

theorem pop_eq {compressed : List Byte} {children : Children Node} {pos : Option Nat}
    (hNext : children.getNextPos pos = none) (fuel : Nat) (current : Option Key) :
    nextLoop (fuel + 1) { node := current, stack := (.inner compressed children, pos) :: stack } =
      nextLoop fuel { node := current, stack } := by
  rw [nextLoop]
  simp only [hNext]

theorem Pending.next {length : Nat} {stack : List (Node × Option Nat)} {keys : List Key}
    (h : Pending length stack keys) : (keys = [] ∧ Ends stack) ∨ Finds length stack keys := by
  induction h with
  | nil =>
    refine Or.inl ⟨rfl, 1, fun fuel hFuel current => ?_⟩
    obtain ⟨fuel, rfl⟩ := Nat.exists_eq_add_one_of_ne_zero (show fuel ≠ 0 by omega)
    rfl
  | @cons path compressed children pos stack keys keysOf hWell hNonempty hChildren hStack ih =>
    cases hNext : children.getNextPos pos with
    | none =>
      rw [Children.getNextPos_eq_none hWell hNonempty hNext, flatMap_nil, nil_append]
      rcases ih with ⟨hKeys, steps, hSteps⟩ | ⟨key, rest, after, hMoved, steps, hSteps⟩
      · refine Or.inl ⟨hKeys, steps + 1, fun fuel hFuel current => ?_⟩
        obtain ⟨fuel, rfl⟩ := Nat.exists_eq_add_one_of_ne_zero (show fuel ≠ 0 by omega)
        rw [pop_eq hNext]
        exact hSteps fuel (by omega) current
      · refine Or.inr ⟨key, rest, after, hMoved, steps + 1, fun fuel hFuel current => ?_⟩
        obtain ⟨fuel, rfl⟩ := Nat.exists_eq_add_one_of_ne_zero (show fuel ≠ 0 by omega)
        rw [pop_eq hNext]
        exact hSteps fuel (by omega) current
    | some next =>
      obtain ⟨entry, hChild, hMem, hList⟩ := Children.getNextPos_eq_some hWell hNonempty hNext
      refine Or.inr (Finds.step hNext hChild ?_)
      rw [hList, flatMap_cons, append_assoc]
      exact finds_child (hChildren entry hMem) (Pending.cons (some next) keysOf hWell hNonempty hChildren hStack)

theorem Pending.skipLeaf {length : Nat} {stack : List (Node × Option Nat)} {keys : List Key}
    (h : Pending length stack keys) (current : Option Key) :
    skipLeaf { node := current, stack } = { node := current, stack } := by
  cases h <;> rfl

theorem visitRest_spec {it : Iterator} (hSkip : skipLeaf it = { it with stack }) (h : Pending length stack keys) :
    ∃ steps, ∀ fuel ≥ steps, ∀ calls > keys.length, visitRest fuel calls it = some (keys.map Key.tuple) := by
  induction keys generalizing it stack with
  | nil =>
    rcases h.next with ⟨_, steps, hSteps⟩ | ⟨_, _, _, hMoved, _⟩
    · refine ⟨steps, fun fuel hFuel calls hCalls => ?_⟩
      obtain ⟨calls, rfl⟩ := Nat.exists_eq_add_one_of_ne_zero (show calls ≠ 0 by omega)
      rw [visitRest, iteratorNext, hSkip, hSteps fuel hFuel]
      rfl
    · cases hMoved.1
  | cons key keys ih =>
    rcases h.next with ⟨hNil, _⟩ | ⟨_, _, after, ⟨hKeys, hAfter⟩, steps, hSteps⟩
    · cases hNil
    · cases hKeys
      have hLeaf : skipLeaf { node := some key, stack := (.leaf key, none) :: after } =
          { node := some key, stack := after } := rfl
      obtain ⟨more, hMore⟩ := ih hLeaf hAfter
      refine ⟨max steps more, fun fuel hFuel calls hCalls => ?_⟩
      obtain ⟨calls, rfl⟩ := Nat.exists_eq_add_one_of_ne_zero (show calls ≠ 0 by omega)
      rw [length_cons] at hCalls
      rw [visitRest, iteratorNext, hSkip, hSteps fuel ((Nat.le_max_left _ _).trans hFuel)]
      simp only [Option.bind_eq_bind, Option.bind_some, if_true]
      rw [hMore fuel ((Nat.le_max_right _ _).trans hFuel) calls (by omega)]
      rfl

theorem visit_spec {tree : Node} (h : Holds length [] tree keys) :
    ∃ fuel, visit fuel (some tree) = some (keys.map Key.tuple) := by
  obtain ⟨key, rest, after, ⟨hKeys, hAfter⟩, hBegin⟩ := beginImpl_spec h none Pending.nil
  rw [append_nil] at hKeys
  obtain ⟨steps, hSteps⟩ := visitRest_spec (hAfter.skipLeaf (some key)) hAfter
  have hFuel : length < ([] : List Byte).length + (steps + length + rest.length + 1) := by
    rw [length_nil]
    omega
  refine ⟨steps + length + rest.length + 1, ?_⟩
  rw [visit, createIt, hBegin _ hFuel]
  simp only [Option.bind_eq_bind, Option.bind_some]
  rw [hSteps _ (by omega) _ (by omega), hKeys]
  rfl

end KushDB.TupleIdxTable
