import KushDB.Library.Regex

/-! # Planning LIKE

The planner turns `x LIKE p` into a test for a part of the text at its beginning, at its end or anywhere in it
where the pattern has no percent sign but at its ends, and into a regular expression otherwise.
-/

namespace KushDB.Planner

open KushDB.Regex

/-- Whether a text matches a pattern in SQL. -/
def like : List Char → List Char → Bool
  | [], text => text.isEmpty
  | c :: pattern, text =>
    if c = '%' then (List.range (text.length + 1)).any fun count => like pattern (text.drop count)
    else match text with
      | [] => false
      | first :: text => (c = '_' ∨ c = first) && like pattern text

theorem like_percent_cons (pattern text : List Char) :
    like ('%' :: pattern) text = (List.range (text.length + 1)).any fun count => like pattern (text.drop count) := by
  rw [like.eq_def]
  rfl

theorem like_percent (pattern text : List Char) :
    like ('%' :: pattern) text = true ↔ ∃ count ≤ text.length, like pattern (text.drop count) = true := by
  rw [like_percent_cons, List.any_eq_true]
  simp only [List.mem_range, Nat.lt_succ_iff]

variable {c : Char} {text : List Char}

theorem like_nil (h : c ≠ '%') (pattern : List Char) : like (c :: pattern) [] = false := by
  rw [like.eq_def]
  simp only [if_neg h]

theorem like_cons (h : c ≠ '%') (pattern : List Char) (first : Char) (text : List Char) :
    like (c :: pattern) (first :: text) = ((c = '_' ∨ c = first) && like pattern text) := by
  rw [like.eq_def]
  simp only [if_neg h]

inductive LikePlan
  | startsWith (part : List Char)
  | endsWith (part : List Char)
  | contains (part : List Char)
  | regexpMatching (regex : List Char)
deriving DecidableEq, Repr

def regexOf (c : Char) : List Char :=
  if c ∈ metacharacters then ['\\', c]
  else if c = '_' then ['.']
  else if c = '%' then ['.', '*']
  else [c]

def planLike (pattern : List Char) : LikePlan :=
  if pattern.head? = some '%' ∧ '%' ∉ pattern.tail then .startsWith pattern.tail
  else if pattern.getLast? = some '%' ∧ '%' ∉ pattern.dropLast then .endsWith pattern.dropLast
  else if 2 ≤ pattern.length ∧ pattern.head? = some '%' ∧ pattern.getLast? = some '%' ∧
      '%' ∉ pattern.tail.dropLast then .contains pattern.tail.dropLast
  else .regexpMatching ('^' :: pattern.flatMap regexOf ++ ['$'])

def startsWith (text part : List Char) : Bool := part.isPrefixOf text

def endsWith (text part : List Char) : Bool :=
  if part.length ≤ text.length then text.drop (text.length - part.length) = part else false

def contains (text part : List Char) : Bool :=
  (List.range (text.length + 1)).any fun pos => part.isPrefixOf (text.drop pos)

/-- `RE2::FullMatch`, which decides every regular expression that the reference reads. -/
structure Re2 where
  fullMatch : List Char → List Char → Bool
  correct : ∀ regex text result, Regex.fullMatch regex text = some result → fullMatch text regex = result

def evaluate (re2 : Re2) (text : List Char) : LikePlan → Bool
  | .startsWith part => startsWith text part
  | .endsWith part => endsWith text part
  | .contains part => contains text part
  | .regexpMatching regex => re2.fullMatch text regex

/-! ## The regular expression -/

def tokensOf (c : Char) : List Token :=
  if c = '_' then [.atom .any]
  else if c = '%' then [.atom .any, .star]
  else [.atom (.char c)]

def pieceOf (c : Char) : Piece :=
  if c = '_' then .one .any
  else if c = '%' then .many .any
  else .one (.char c)

theorem lex_regexOf (c : Char) (rest : List Char) : lex (regexOf c ++ rest) = (lex rest).map (tokensOf c ++ ·) := by
  unfold regexOf tokensOf
  by_cases hMeta : c ∈ metacharacters
  · have hUnderscore : c ≠ '_' := by
      rintro rfl
      exact absurd hMeta (by decide)
    have hPercent : c ≠ '%' := by
      rintro rfl
      exact absurd hMeta (by decide)
    rw [if_pos hMeta, if_neg hUnderscore, if_neg hPercent]
    exact lex_escaped hMeta rest
  · rw [if_neg hMeta]
    split
    · exact lex_symbol (by decide) (by decide) rest
    · split
      · change lex ('.' :: '*' :: rest) = _
        rw [lex_symbol (by decide) (show symbol '.' = some (.atom .any) by decide),
          lex_symbol (by decide) (show symbol '*' = some .star by decide), Option.map_map]
        rfl
      · have hPlain : c ≠ '\\' := by
          rintro rfl
          exact hMeta (by decide)
        exact lex_symbol hPlain (symbol_plain hMeta) rest

theorem lex_pattern (pattern : List Char) :
    lex (pattern.flatMap regexOf ++ ['$']) = some (pattern.flatMap tokensOf ++ [.finish]) := by
  induction pattern with
  | nil => decide
  | cons c pattern ih =>
    rw [List.flatMap_cons, List.append_assoc, lex_regexOf, ih, Option.map_some, List.flatMap_cons, List.append_assoc]

theorem head_tokens (pattern : List Char) : (pattern.flatMap tokensOf ++ [Token.finish]).head? ≠ some .star := by
  cases pattern with
  | nil => decide
  | cons c pattern =>
    rw [List.flatMap_cons, tokensOf]
    split
    · simp
    · split <;> simp

theorem group_pattern (pattern : List Char) :
    group (pattern.flatMap tokensOf ++ [.finish]) = some (pattern.map pieceOf ++ [.finish]) := by
  induction pattern with
  | nil => rfl
  | cons c pattern ih =>
    rw [List.flatMap_cons, List.append_assoc, List.map_cons, List.cons_append]
    unfold tokensOf pieceOf
    split
    · exact (group_one (head_tokens pattern)).trans (by rw [ih]; rfl)
    · split
      · change (group (pattern.flatMap tokensOf ++ [.finish])).map _ = _
        rw [ih]
        rfl
      · exact (group_one (head_tokens pattern)).trans (by rw [ih]; rfl)

theorem matchesAll_pattern (pattern : List Char) (atStart : Bool) (hText : '\n' ∉ text) :
    matchesAll (pattern.map pieceOf ++ [.finish]) atStart text = like pattern text := by
  induction pattern generalizing atStart text with
  | nil => simp [matchesAll, like]
  | cons c pattern ih =>
    rw [List.map_cons, List.cons_append]
    by_cases hPercent : c = '%'
    · subst hPercent
      rw [like_percent_cons, show pieceOf '%' = .many .any from rfl, matchesAll]
      congr 1
      funext count
      have hTake : (text.take count).all Atom.any.accepts = true := by
        rw [List.all_eq_true]
        intro other hOther
        have hNe : other ≠ '\n' := fun hEq => hText (List.mem_of_mem_take (hEq ▸ hOther))
        simpa [Atom.accepts] using hNe
      rw [hTake, Bool.true_and, ih _ fun hIn => hText (List.mem_of_mem_drop hIn)]
    · have hPiece : pieceOf c = .one (if c = '_' then .any else .char c) := by
        unfold pieceOf
        rw [if_neg hPercent, apply_ite Piece.one]
      rw [hPiece]
      cases text with
      | nil => rw [like_nil hPercent, matchesAll]
      | cons first text =>
        have hFirst : first ≠ '\n' := fun hEq => hText (hEq ▸ List.mem_cons_self)
        rw [like_cons hPercent, matchesAll, ih _ fun hIn => hText (List.mem_cons_of_mem _ hIn)]
        congr 1
        by_cases hUnderscore : c = '_'
        · simp [hUnderscore, Atom.accepts, hFirst]
        · simp [hUnderscore, Atom.accepts, eq_comm]

/-- The regular expression means the pattern. -/
theorem evaluate_regex (re2 : Re2) (pattern : List Char) (hText : '\n' ∉ text) :
    evaluate re2 text (.regexpMatching ('^' :: pattern.flatMap regexOf ++ ['$'])) = like pattern text := by
  refine re2.correct _ text _ ?_
  have hLex : lex ('^' :: pattern.flatMap regexOf ++ ['$']) = some (.start :: pattern.flatMap tokensOf ++ [.finish]) := by
    rw [List.cons_append, lex_symbol (by decide) (show symbol '^' = some .start by decide), lex_pattern]
    rfl
  have hGroup : group (.start :: pattern.flatMap tokensOf ++ [.finish]) =
      some (.start :: pattern.map pieceOf ++ [.finish]) := by
    rw [List.cons_append, group, group_pattern]
    rfl
  rw [Regex.fullMatch, hLex, Option.bind_some, hGroup, Option.map_some, List.cons_append, matchesAll, Bool.true_and,
    matchesAll_pattern pattern true hText]

end KushDB.Planner
