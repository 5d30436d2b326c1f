import Mathlib.Data.List.Basic

/-! # Grouping

Elements come one after the other. Each is added to the group it belongs to, or starts a group of its own. In the end
there is one group for each kind of element, made from its first element and the later ones in their order.
-/

namespace KushDB.Grouping

open List

variable {α γ : Type} (same : γ → α → Bool) (new : α → γ) (add : γ → α → γ)

def upsert (element : α) : List γ → List γ
  | [] => [new element]
  | group :: groups => if same group element then add group element :: groups else group :: upsert element groups

/-- The elements of other groups. -/
def others (group : γ) (elements : List α) : List α := elements.filter fun element => !same group element

/-- The groups of a list, in the order of their first elements. -/
def groupsOf : List α → List γ
  | [] => []
  | element :: rest =>
    (rest.filter (same (new element))).foldl add (new element) ::
      groupsOf (others same (new element) rest)
termination_by list => list.length
decreasing_by exact Nat.lt_succ_of_le (List.length_filter_le _ _)

variable {same new add}

section

variable (hSame : ∀ group element other, same (add group element) other = same group other)
include hSame

theorem foldl_upsert_cons (group : γ) (groups : List γ) (elements : List α) :
    elements.foldl (fun groups element => upsert same new add element groups) (group :: groups) =
      (elements.filter (same group)).foldl add group ::
        (others same group elements).foldl
          (fun groups element => upsert same new add element groups) groups := by
  induction elements generalizing group groups with
  | nil => rfl
  | cons element elements ih =>
    rw [foldl_cons, upsert]
    split
    · rename_i hIn
      have hFun : same (add group element) = same group := funext (hSame group element)
      rw [ih, filter_cons_of_pos hIn, foldl_cons, others, others, filter_cons_of_neg (by simp [hIn]),
        hFun]
    · rename_i hOut
      rw [ih, filter_cons_of_neg hOut, others, others, filter_cons_of_pos (by simpa using hOut), foldl_cons]

/-- Adding the elements one after the other gives the groups. -/
theorem foldl_upsert (elements : List α) :
    elements.foldl (fun groups element => upsert same new add element groups) [] = groupsOf same new add elements := by
  induction elements using groupsOf.induct same new with
  | case1 => rw [groupsOf, foldl_nil]
  | case2 element rest ih => rw [foldl_cons, upsert, foldl_upsert_cons hSame, ih, groupsOf]

theorem groupsOf_append (elements : List α) (element : α) :
    groupsOf same new add (elements ++ [element]) = upsert same new add element (groupsOf same new add elements) := by
  rw [← foldl_upsert hSame, ← foldl_upsert hSame, foldl_append, foldl_cons, foldl_nil]

end

variable {element : α} {groups : List γ}

theorem upsert_of_none (h : ∀ group ∈ groups, same group element = false) :
    upsert same new add element groups = groups ++ [new element] := by
  induction groups with
  | nil => rfl
  | cons group groups ih =>
    rw [forall_mem_cons] at h
    rw [upsert, if_neg (by rw [h.1]; exact Bool.false_ne_true), ih h.2, cons_append]

theorem upsert_of_first {number : Nat} {group : γ} (hGroup : groups[number]? = some group)
    (hIn : same group element = true)
    (hFirst : ∀ earlier < number, ∀ other, groups[earlier]? = some other → same other element = false) :
    upsert same new add element groups = groups.set number (add group element) := by
  induction groups generalizing number with
  | nil => simp at hGroup
  | cons head groups ih =>
    cases number with
    | zero =>
      cases hGroup
      rw [upsert, if_pos hIn, set_cons_zero]
    | succ number =>
      have hHead := hFirst 0 (Nat.succ_pos _) head rfl
      rw [upsert, if_neg (by rw [hHead]; exact Bool.false_ne_true), set_cons_succ]
      refine congrArg (head :: ·) (ih hGroup fun earlier hEarlier other hOther => ?_)
      exact hFirst (earlier + 1) (Nat.succ_lt_succ hEarlier) other hOther

theorem length_le_upsert (element : α) (groups : List γ) :
    groups.length ≤ (upsert same new add element groups).length := by
  induction groups with
  | nil => exact Nat.zero_le _
  | cons group groups ih =>
    rw [upsert]
    split
    · exact Nat.le_refl _
    · exact Nat.succ_le_succ ih

/-- Elements of different kinds are groups of their own. -/
theorem groupsOf_of_pairwise {elements : List α}
    (h : elements.Pairwise fun left right => same (new left) right = false) :
    groupsOf same new add elements = elements.map new := by
  induction h with
  | nil => rw [groupsOf, map_nil]
  | cons hHead _ ih =>
    rw [groupsOf, filter_eq_nil_iff.mpr fun other hOther => by rw [hHead other hOther]; exact Bool.false_ne_true,
      others, filter_eq_self.mpr fun other hOther => by rw [hHead other hOther]; rfl, ih, foldl_nil, map_cons]

/-! ## One group for each kind -/

section

variable (hSymm : ∀ left right, same (new left) right = true → same (new right) left = true)
  (hTrans : ∀ left middle right, same (new left) middle = true → same (new middle) right = true →
    same (new left) right = true)

include hSymm hTrans

variable {element : α} {elements : List α}

/-- The groups of other kinds do not change when the elements of one kind are left out. -/
theorem filter_others {first : α} (h : same (new element) first = false) (rest : List α) :
    (others same (new element) rest).filter (same (new first)) = rest.filter (same (new first)) := by
  rw [others, filter_filter]
  refine filter_congr fun other _ => ?_
  cases hFirst : same (new first) other with
  | false => rfl
  | true =>
    cases hElement : same (new element) other with
    | false => rfl
    | true =>
      rw [hTrans _ _ _ hElement (hSymm _ _ hFirst)] at h
      cases h

/-- A group is made from its first element and from the later ones of its kind. -/
theorem mem_groupsOf {group : γ} (h : group ∈ groupsOf same new add elements) :
    ∃ first ∈ elements, ∃ later, group = later.foldl add (new first) ∧
      (same (new first) first = true → elements.filter (same (new first)) = first :: later) := by
  induction elements using groupsOf.induct same new with
  | case1 =>
    rw [groupsOf] at h
    cases h
  | case2 element rest ih =>
    rw [groupsOf, mem_cons] at h
    rcases h with rfl | hRest
    · refine ⟨element, mem_cons_self, _, rfl, fun hSelf => ?_⟩
      rw [filter_cons_of_pos hSelf]
    · obtain ⟨first, hFirst, later, hGroup, hLater⟩ := ih hRest
      obtain ⟨hMem, hOther⟩ := mem_filter.mp hFirst
      rw [Bool.not_eq_true'] at hOther
      have hNot : ¬same (new first) element = true := fun hSame => by
        rw [hSymm _ _ hSame] at hOther
        cases hOther
      refine ⟨first, mem_cons_of_mem _ hMem, later, hGroup, fun hSelf => ?_⟩
      rw [filter_cons_of_neg hNot, ← filter_others hSymm hTrans hOther]
      exact hLater hSelf

omit hSymm hTrans in
/-- Every element has a group. -/
theorem exists_mem_groupsOf (h : element ∈ elements) :
    ∃ (first : α) (later : List α), later.foldl add (new first) ∈ groupsOf same new add elements ∧
      (element = first ∨ same (new first) element = true) := by
  induction elements using groupsOf.induct same new with
  | case1 => cases h
  | case2 head rest ih =>
    rw [groupsOf]
    rcases mem_cons.mp h with rfl | hRest
    · exact ⟨element, _, mem_cons_self, Or.inl rfl⟩
    · cases hSame : same (new head) element with
      | true => exact ⟨head, _, mem_cons_self, Or.inr hSame⟩
      | false =>
        obtain ⟨first, later, hMem, hKind⟩ := ih (mem_filter.mpr ⟨hRest, by rw [hSame]; rfl⟩)
        exact ⟨first, later, mem_cons_of_mem _ hMem, hKind⟩

end

/-- The groups hold all elements. -/
theorem perm_groupsOf {members : γ → List α} (hNew : ∀ element, members (new element) = [element])
    (hAdd : ∀ group element, members (add group element) = members group ++ [element]) (elements : List α) :
    ((groupsOf same new add elements).flatMap members).Perm elements := by
  have hFold : ∀ (later : List α) (group : γ), members (later.foldl add group) = members group ++ later := by
    intro later
    induction later with
    | nil => exact fun _ => (append_nil _).symm
    | cons element later ih => exact fun group => by rw [foldl_cons, ih, hAdd, append_assoc, singleton_append]
  induction elements using groupsOf.induct same new with
  | case1 =>
    rw [groupsOf]
    exact List.Perm.nil
  | case2 element rest ih =>
    rw [groupsOf, flatMap_cons, hFold, hNew, singleton_append, cons_append]
    exact (((List.Perm.refl _).append ih).trans (filter_append_perm (same (new element)) rest)).cons element

/-- No two groups are of one kind. -/
theorem nodup_groupsOf {κ : Type} {kind : α → κ} {groupKind : γ → κ}
    (hSame : ∀ group element, same group element = true ↔ groupKind group = kind element)
    (hNew : ∀ element, groupKind (new element) = kind element)
    (hAdd : ∀ group element, groupKind (add group element) = groupKind group) (elements : List α) :
    ((groupsOf same new add elements).map groupKind).Nodup := by
  have hFold : ∀ (later : List α) (group : γ), groupKind (later.foldl add group) = groupKind group := by
    intro later
    induction later with
    | nil => exact fun _ => rfl
    | cons element later ih => exact fun group => (ih _).trans (hAdd group element)
  have hSymm : ∀ left right, same (new left) right = true → same (new right) left = true := by
    intro left right h
    rw [hSame, hNew] at h ⊢
    exact h.symm
  have hTrans : ∀ left middle right, same (new left) middle = true → same (new middle) right = true →
      same (new left) right = true := by
    intro left middle right hLeft hRight
    rw [hSame, hNew] at hLeft hRight ⊢
    exact hLeft.trans hRight
  induction elements using groupsOf.induct same new with
  | case1 =>
    rw [groupsOf]
    exact nodup_nil
  | case2 element rest ih =>
    rw [groupsOf, map_cons, nodup_cons]
    refine ⟨fun hMem => ?_, ih⟩
    obtain ⟨group, hGroup, hKind⟩ := mem_map.mp hMem
    obtain ⟨first, hFirst, later, rfl, _⟩ := mem_groupsOf hSymm hTrans hGroup
    have hOther := (mem_filter.mp hFirst).2
    rw [hFold, hFold] at hKind
    rw [(hSame (new element) first).mpr (by rw [← hKind, hNew])] at hOther
    cases hOther

end KushDB.Grouping
