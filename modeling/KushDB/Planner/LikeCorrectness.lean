import KushDB.Planner.Like

/-! # Where planned LIKE is SQL's LIKE

A pattern that begins with its only percent sign asks for the end of a text and is planned as a test of its
beginning, and the other way round; between two percent signs an underscore is planned as itself. Those are the only
patterns that go wrong.
-/

namespace KushDB.Planner

open List

variable {part : List Char}

/-- A text that a pattern without percent signs matches, and then any text where the pattern ends in one. -/
theorem like_filled (hPart : '%' ∉ part) {fill : Char → Char} (hFill : ∀ c, c ≠ '_' → fill c = c) (rest : List Char) :
    like part (part.map fill) = true ∧ like (part ++ ['%']) (part.map fill ++ rest) = true := by
  induction part with
  | nil => exact ⟨rfl, (like_percent [] rest).mpr ⟨rest.length, Nat.le_refl _, by simp [like]⟩⟩
  | cons c part ih =>
    obtain ⟨hFirst, hRest⟩ := ne_and_not_mem_of_not_mem_cons hPart
    obtain ⟨hPlain, hPercent⟩ := ih hRest
    have hAccepts : c = '_' ∨ c = fill c := by
      by_cases hUnderscore : c = '_'
      · exact Or.inl hUnderscore
      · exact Or.inr (hFill c hUnderscore).symm
    rw [map_cons, cons_append, cons_append, like_cons (Ne.symm hFirst), like_cons (Ne.symm hFirst), hPlain,
      hPercent]
    simpa using hAccepts

/-- Without wildcards, a pattern that ends in a percent sign matches the texts that begin with it. -/
theorem like_literal (hPercent : '%' ∉ part) (hUnderscore : '_' ∉ part) (text : List Char) :
    like (part ++ ['%']) text = part.isPrefixOf text := by
  induction part generalizing text with
  | nil => exact (like_percent [] text).mpr ⟨text.length, Nat.le_refl _, by simp [like]⟩
  | cons c part ih =>
    obtain ⟨hFirst, hRest⟩ := ne_and_not_mem_of_not_mem_cons hPercent
    obtain ⟨hOther, hRest'⟩ := ne_and_not_mem_of_not_mem_cons hUnderscore
    rw [cons_append]
    cases text with
    | nil => rw [like_nil (Ne.symm hFirst), isPrefixOf_cons_nil]
    | cons first text =>
      rw [like_cons (Ne.symm hFirst), ih hRest hRest', isPrefixOf_cons_cons]
      simp [Ne.symm hOther, Bool.beq_eq_decide_eq]

theorem contains_literal (hPercent : '%' ∉ part) (hUnderscore : '_' ∉ part) (text : List Char) :
    contains text part = like ('%' :: part ++ ['%']) text := by
  rw [cons_append, like_percent_cons, contains]
  simp only [like_literal hPercent hUnderscore]

/-- What the four branches of the planner are taken for. -/
theorem planLike_cases (pattern : List Char) :
    (∃ part, '%' ∉ part ∧ pattern = '%' :: part ∧ planLike pattern = .startsWith part) ∨
    (∃ part, part ≠ [] ∧ '%' ∉ part ∧ pattern = part ++ ['%'] ∧ planLike pattern = .endsWith part) ∨
    (∃ part, '%' ∉ part ∧ pattern = '%' :: part ++ ['%'] ∧ planLike pattern = .contains part) ∨
    ((∀ part, '%' ∉ part → pattern ≠ '%' :: part ∧ pattern ≠ part ++ ['%'] ∧ pattern ≠ '%' :: part ++ ['%']) ∧
      planLike pattern = .regexpMatching ('^' :: pattern.flatMap regexOf ++ ['$'])) := by
  by_cases hFront : pattern.head? = some '%' ∧ '%' ∉ pattern.tail
  · refine Or.inl ⟨pattern.tail, hFront.2, ?_, if_pos hFront⟩
    obtain ⟨part, rfl⟩ := List.head?_eq_some_iff.mp hFront.1
    rfl
  have hNotFront : ∀ part, '%' ∉ part → pattern ≠ '%' :: part := by
    rintro part hPart rfl
    exact hFront ⟨rfl, hPart⟩
  by_cases hBack : pattern.getLast? = some '%' ∧ '%' ∉ pattern.dropLast
  · refine Or.inr (Or.inl ⟨pattern.dropLast, ?_, hBack.2, ?_, by rw [planLike, if_neg hFront, if_pos hBack]⟩)
    · intro hNil
      obtain ⟨part, rfl⟩ := List.getLast?_eq_some_iff.mp hBack.1
      rw [dropLast_concat] at hNil
      exact hNotFront [] (not_mem_nil) (by rw [hNil, nil_append])
    · obtain ⟨part, rfl⟩ := List.getLast?_eq_some_iff.mp hBack.1
      rw [dropLast_concat]
  have hNotBack : ∀ part, '%' ∉ part → pattern ≠ part ++ ['%'] := by
    rintro part hPart rfl
    exact hBack ⟨List.getLast?_concat, by rwa [dropLast_concat]⟩
  by_cases hBoth : 2 ≤ pattern.length ∧ pattern.head? = some '%' ∧ pattern.getLast? = some '%' ∧
      '%' ∉ pattern.tail.dropLast
  · refine Or.inr (Or.inr (Or.inl ⟨pattern.tail.dropLast, hBoth.2.2.2, ?_,
      by rw [planLike, if_neg hFront, if_neg hBack, if_pos hBoth]⟩))
    obtain ⟨hLength, hHead, hLast, -⟩ := hBoth
    obtain ⟨rest, rfl⟩ := List.head?_eq_some_iff.mp hHead
    obtain rfl | ⟨part, last, rfl⟩ := rest.eq_nil_or_concat
    · simp at hLength
    · have hEq : last = '%' := by simpa [List.getLast?_cons] using hLast
      rw [tail_cons, concat_eq_append, dropLast_concat, hEq, cons_append]
  refine Or.inr (Or.inr (Or.inr ⟨fun part hPart => ⟨hNotFront part hPart, hNotBack part hPart, ?_⟩,
    by rw [planLike, if_neg hFront, if_neg hBack, if_neg hBoth]⟩))
  rintro rfl
  refine hBoth ⟨by simp, rfl, List.getLast?_concat, ?_⟩
  rwa [cons_append, tail_cons, dropLast_concat]

/-! ## Texts that the tests get wrong -/

def otherThan (c : Char) : Char := if c = 'a' then 'b' else 'a'

theorem otherThan_ne (c : Char) : otherThan c ≠ c := by
  unfold otherThan
  split
  · rename_i h
    rw [h]
    decide
  · rename_i h
    exact Ne.symm h

theorem otherThan_ne_newline (c : Char) : '\n' ≠ otherThan c := by
  unfold otherThan
  split <;> decide

def filled (c : Char) : Char := if c = '_' then 'a' else c

theorem filled_eq_self {c : Char} (h : c ≠ '_') : filled c = c := if_neg h

theorem filled_ne_underscore (c : Char) : filled c ≠ '_' := by
  unfold filled
  split
  · decide
  · assumption

theorem startsWith_wrong (hPart : part ≠ []) (hPercent : '%' ∉ part) :
    ∃ c, '\n' ≠ c ∧ startsWith (c :: part) part = false ∧ like ('%' :: part) (c :: part) = true := by
  obtain ⟨first, rest, rfl⟩ := exists_cons_of_ne_nil hPart
  refine ⟨otherThan first, otherThan_ne_newline first, ?_, ?_⟩
  · simp [startsWith, isPrefixOf_cons_cons, Ne.symm (otherThan_ne first)]
  · refine (like_percent _ _).mpr ⟨1, by simp, ?_⟩
    have hSelf := (like_filled hPercent (fun c _ => show id c = c from rfl) []).1
    rwa [map_id] at hSelf

theorem endsWith_wrong (hPart : part ≠ []) (hPercent : '%' ∉ part) :
    ∃ c, '\n' ≠ c ∧ endsWith (part ++ [c]) part = false ∧ like (part ++ ['%']) (part ++ [c]) = true := by
  refine ⟨otherThan (part.getLast hPart), otherThan_ne_newline _, ?_, ?_⟩
  · rw [endsWith, if_pos (by simp)]
    simp only [decide_eq_false_iff_not]
    intro hEq
    -- the last characters would agree
    have hLast := congrArg List.getLast? hEq
    rw [List.getLast?_drop, if_neg (by simp [hPart]), List.getLast?_concat, List.getLast?_eq_some_getLast hPart] at hLast
    exact otherThan_ne _ (Option.some.inj hLast)
  · have hSelf := (like_filled hPercent (fun c _ => show id c = c from rfl) [otherThan (part.getLast hPart)]).2
    rwa [map_id] at hSelf

theorem contains_wrong (hPercent : '%' ∉ part) (hUnderscore : '_' ∈ part) :
    contains (part.map filled) part = false ∧ like ('%' :: part ++ ['%']) (part.map filled) = true := by
  constructor
  · rw [contains, any_eq_false]
    intro pos _ hPrefix
    -- a part as long as the text is the text
    have hEq := (List.isPrefixOf_iff_prefix.mp hPrefix).eq_of_length_le (by simp)
    rw [hEq] at hUnderscore
    obtain ⟨c, -, hC⟩ := List.mem_map.mp (mem_of_mem_drop hUnderscore)
    exact filled_ne_underscore c hC
  · refine (like_percent _ _).mpr ⟨0, Nat.zero_le _, ?_⟩
    have hFilled := (like_filled hPercent (fun c => filled_eq_self) []).2
    rwa [append_nil] at hFilled

/-! ## The patterns that are planned right -/

/-- For every text, the planned test holds where SQL's does. -/
def Preserves (re2 : Re2) (pattern : List Char) : Prop :=
  ∀ text, '\n' ∉ text → evaluate re2 text (planLike pattern) = like pattern text

theorem preserves_startsWith (re2 : Re2) (hPercent : '%' ∉ part) (hNewline : '\n' ∉ part)
    (hPlan : planLike ('%' :: part) = .startsWith part) : Preserves re2 ('%' :: part) ↔ part = [] := by
  constructor
  · intro hPreserves
    by_contra hPart
    obtain ⟨c, hC, hTest, hLike⟩ := startsWith_wrong hPart hPercent
    have hEq := hPreserves (c :: part) (not_mem_cons_of_ne_of_not_mem hC hNewline)
    rw [hPlan, evaluate, hTest, hLike] at hEq
    exact Bool.noConfusion hEq
  · rintro rfl text -
    rw [hPlan]
    exact ((like_percent [] text).mpr ⟨text.length, Nat.le_refl _, by simp [like]⟩).symm

theorem not_preserves_endsWith (re2 : Re2) (hPart : part ≠ []) (hPercent : '%' ∉ part) (hNewline : '\n' ∉ part)
    (hPlan : planLike (part ++ ['%']) = .endsWith part) : ¬ Preserves re2 (part ++ ['%']) := by
  intro hPreserves
  obtain ⟨c, hC, hTest, hLike⟩ := endsWith_wrong hPart hPercent
  have hEq := hPreserves (part ++ [c]) (by simp [hNewline, hC])
  rw [hPlan, evaluate, hTest, hLike] at hEq
  exact Bool.noConfusion hEq

theorem preserves_contains (re2 : Re2) (hPercent : '%' ∉ part) (hNewline : '\n' ∉ part)
    (hPlan : planLike ('%' :: part ++ ['%']) = .contains part) : Preserves re2 ('%' :: part ++ ['%']) ↔ '_' ∉ part := by
  constructor
  · intro hPreserves hUnderscore
    obtain ⟨hTest, hLike⟩ := contains_wrong hPercent hUnderscore
    have hText : '\n' ∉ part.map filled := by
      intro hIn
      obtain ⟨c, hC, hEq⟩ := List.mem_map.mp hIn
      unfold filled at hEq
      split at hEq
      · exact absurd hEq (by decide)
      · exact hNewline (hEq ▸ hC)
    have hEq := hPreserves _ hText
    rw [hPlan, evaluate, hTest, hLike] at hEq
    exact Bool.noConfusion hEq
  · intro hUnderscore text _
    rw [hPlan, evaluate, contains_literal hPercent hUnderscore]

theorem planLike_preserves_iff (re2 : Re2) {pattern : List Char} (hNewline : '\n' ∉ pattern) :
    Preserves re2 pattern ↔
      (∀ part, '%' ∉ part → pattern = '%' :: part ∨ pattern = part ++ ['%'] → part = []) ∧
        ∀ part, '%' ∉ part → pattern = '%' :: part ++ ['%'] → '_' ∉ part := by
  rcases planLike_cases pattern with ⟨part, hPart, rfl, hPlan⟩ | ⟨part, hSome, hPart, rfl, hPlan⟩ |
    ⟨part, hPart, rfl, hPlan⟩ | ⟨hNone, hPlan⟩
  · rw [preserves_startsWith re2 hPart (fun hIn => hNewline (mem_cons_of_mem _ hIn)) hPlan]
    constructor
    · rintro rfl
      refine ⟨fun other _ hOther => ?_, fun other _ hOther => by simp at hOther⟩
      rcases hOther with hEq | hEq
      · simpa using hEq.symm
      · simpa using hEq
    · exact fun hShape => hShape.1 part hPart (Or.inl rfl)
  · have hWrong := not_preserves_endsWith re2 hSome hPart (fun hIn => hNewline (mem_append_left _ hIn)) hPlan
    exact ⟨fun hPreserves => absurd hPreserves hWrong, fun hShape => absurd (hShape.1 part hPart (Or.inr rfl)) hSome⟩
  · have hClean : '\n' ∉ part := fun hIn => hNewline (mem_append_left _ (mem_cons_of_mem _ hIn))
    rw [preserves_contains re2 hPart hClean hPlan]
    constructor
    · refine fun hUnderscore => ⟨fun other hOther hShape => ?_, fun other _ hShape => ?_⟩
      · rcases hShape with hEq | hEq
        · rw [cons_append, List.cons.injEq] at hEq
          exact absurd (hEq.2 ▸ mem_append_right _ mem_cons_self) hOther
        · rw [append_left_inj] at hEq
          exact absurd (hEq ▸ mem_cons_self) hOther
      · rw [append_left_inj, List.cons.injEq] at hShape
        exact hShape.2 ▸ hUnderscore
    · exact fun hShape => hShape.2 part hPart rfl
  · refine ⟨fun _ => ⟨fun part hPart hShape => ?_, fun part hPart hShape => absurd hShape (hNone part hPart).2.2⟩,
      fun _ text hText => by rw [hPlan, evaluate_regex re2 pattern hText]⟩
    rcases hShape with hEq | hEq
    · exact absurd hEq (hNone part hPart).1
    · exact absurd hEq (hNone part hPart).2.1

/-- The reference as an engine. -/
def Re2.reference : Re2 where
  fullMatch text regex := (Regex.fullMatch regex text).getD false
  correct _ _ _ h := by rw [h, Option.getD_some]

theorem planLike_preserves_middle : '\n' ∉ ['a', '%', 'b'] ∧ Preserves Re2.reference ['a', '%', 'b'] := by
  have hLast : ∀ part : List Char, ['a', '%', 'b'] ≠ part ++ ['%'] := by
    intro part hEq
    have hEnd := congrArg List.getLast? hEq
    rw [List.getLast?_concat] at hEnd
    exact absurd hEnd (by decide)
  refine ⟨by decide, (planLike_preserves_iff Re2.reference (by decide)).mpr ⟨fun part _ hShape => ?_, ?_⟩⟩
  · rcases hShape with hEq | hEq
    · exact absurd (List.cons.inj hEq).1 (by decide)
    · exact absurd hEq (hLast part)
  · exact fun part _ hEq => absurd hEq (hLast ('%' :: part))

theorem suffix_planned_as_start :
    planLike ['%', 'a'] = .startsWith ['a'] ∧ like ['%', 'a'] ['b', 'a'] = true ∧
      (∀ re2 : Re2, evaluate re2 ['b', 'a'] (planLike ['%', 'a']) = false) ∧ ¬ Preserves Re2.reference ['%', 'a'] := by
  refine ⟨by decide, by decide, fun _ => rfl, fun hPreserves => ?_⟩
  exact absurd (hPreserves ['b', 'a'] (by decide)) (by decide)

end KushDB.Planner
