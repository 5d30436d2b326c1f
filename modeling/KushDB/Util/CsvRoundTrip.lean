import KushDB.Util.QuotedField

/-! # A line of quoted fields

A field is read beyond its closing quote exactly when it ends with a backslash and another field follows. From then on
the reading stays behind a delimiter inside the fields that are left, and the last of them cannot be read as a whole.
-/

namespace KushDB.Util

open List

/-- The fields as `std::quoted` writes them, with the delimiter between them. -/
def joinQuoted (delim : Char) : List (List Char) → List Char
  | [] => []
  | [field] => quoted field
  | field :: next :: fields => quoted field ++ delim :: joinQuoted delim (next :: fields)

theorem joinQuoted_singleton (delim : Char) (field : List Char) :
    joinQuoted delim [field] = followed delim (quoted field) none := rfl

theorem joinQuoted_cons_cons (delim : Char) (field next : List Char) (fields : List (List Char)) :
    joinQuoted delim (field :: next :: fields) =
      followed delim (quoted field) (some (joinQuoted delim (next :: fields))) := rfl

/-- `Split` with the right number of columns and `ParseString` on each field give back the fields. -/
def RoundTrips (delim : Char) (fields : List (List Char)) : Prop :=
  (split (joinQuoted delim fields) delim fields.length).map parseString = fields

variable {delim : Char} {fields : List (List Char)}

/-- A part of a field behind one of its delimiters is not parsed as the field. -/
theorem parseString_ne_of_inside (hQuote : delim ≠ '"') (hSlash : delim ≠ '\\') {s : List Char}
    (before piece after : List Char) (h : quoted s = before ++ delim :: (piece ++ after)) : parseString piece ≠ s := by
  intro hParse
  have hPiece := count_parseString_le hQuote piece
  have hCount := congrArg (List.count delim) h
  rw [count_quoted hQuote hSlash, count_append, count_cons_self, count_append] at hCount
  rw [hParse] at hPiece
  omega

/-- The stream has left the text of the fields, or stands behind a delimiter inside it. -/
def Behind (delim : Char) (fields : List (List Char)) (stream : Stream) : Prop :=
  stream.good = false ∨ ∃ before, stream.good = true ∧ joinQuoted delim fields = before ++ delim :: stream.rest

variable {stream : Stream} {field : List Char}

theorem nextField_of_not_good (h : stream.good = false) : nextField delim stream = ([], stream) := by
  rw [nextField, getline_of_not_good h]
  exact if_pos (by simp)

/-- Behind the text of the fields, one field is not read as it was written, or the rest is behind as well. -/
theorem Behind.next {delim : Char} (hQuote : delim ≠ '"') (hSlash : delim ≠ '\\') {field : List Char}
    {fields : List (List Char)} (hNonempty : field ≠ []) {stream : Stream} (h : Behind delim (field :: fields) stream) :
    parseString (nextField delim stream).1 ≠ field ∨ fields ≠ [] ∧ Behind delim fields (nextField delim stream).2 := by
  rcases h with hEnd | ⟨before, hGood, hText⟩
  · rw [nextField_of_not_good hEnd]
    exact Or.inl hNonempty.symm
  obtain ⟨rest, good⟩ := stream
  obtain rfl : good = true := hGood
  obtain ⟨item, tail, hNext, hRest⟩ := nextField_followed delim rest
  rw [hNext]
  dsimp only at hText ⊢
  cases fields with
  | nil =>
    left
    cases tail with
    | none =>
      apply parseString_ne_of_inside hQuote hSlash before item []
      rw [append_nil]
      exact hText.trans (congrArg (before ++ delim :: ·) hRest)
    | some after =>
      apply parseString_ne_of_inside hQuote hSlash before item (delim :: after)
      exact hText.trans (congrArg (before ++ delim :: ·) hRest)
  | cons next fields =>
    cases tail with
    | none => exact Or.inr ⟨cons_ne_nil _ _, Or.inl rfl⟩
    | some after =>
      have hSplit : quoted field ++ delim :: joinQuoted delim (next :: fields) =
          (before ++ delim :: item) ++ delim :: after := by
        rw [append_assoc, cons_append]
        exact hText.trans (congrArg (before ++ delim :: ·) hRest)
      rcases append_eq_append_iff.mp hSplit with ⟨more, hItem, hAfter⟩ | ⟨more, hField, -⟩
      · rcases more with _ | ⟨c, more⟩
        · left
          apply parseString_ne_of_inside hQuote hSlash before item []
          rw [append_nil, hItem, append_nil]
        · exact Or.inr ⟨cons_ne_nil _ _, Or.inr ⟨more, rfl, (List.cons.inj hAfter).2⟩⟩
      · left
        apply parseString_ne_of_inside hQuote hSlash before item more
        rw [hField, append_assoc, cons_append]

theorem Behind.not_read (hQuote : delim ≠ '"') (hSlash : delim ≠ '\\') (hFields : fields ≠ [])
    (hNonempty : ∀ field ∈ fields, field ≠ []) (h : Behind delim fields stream) :
    (splitFrom delim fields.length stream).map parseString ≠ fields := by
  induction fields generalizing stream with
  | nil => exact absurd rfl hFields
  | cons field fields ih =>
    obtain ⟨hField, hRest⟩ := forall_mem_cons.mp hNonempty
    intro hRead
    obtain ⟨hFirst, hOthers⟩ := List.cons.inj hRead
    rcases h.next hQuote hSlash hField with hWrong | ⟨hMore, hBehind⟩
    · exact hWrong hFirst
    · exact ih hMore hRest hBehind hOthers

/-- A field that ends with a backslash is read beyond its closing quote. -/
theorem behind_of_slash (hQuote : delim ≠ '"') {next : List Char} (hNonempty : field ≠ [])
    (hLast : field.getLast? = some '\\') :
    Behind delim (next :: fields)
      (nextField delim ⟨joinQuoted delim (field :: next :: fields), true⟩).2 := by
  obtain ⟨item, tail, hText, hItem⟩ := exists_followed delim (joinQuoted delim (next :: fields))
  obtain ⟨more, tail', hExtend, hWhole⟩ := extend_followed delim (quoted field ++ delim :: item) tail
  have hRead : nextField delim ⟨joinQuoted delim (field :: next :: fields), true⟩ =
      (quoted field ++ delim :: item ++ more, behind tail') := by
    have hGo : ((behind (some (joinQuoted delim (next :: fields)))).good && keepgoing (quoted field)) = true := by
      rw [(keepgoing_quoted hNonempty).mpr hLast]
      rfl
    refine (nextField_quoted hQuote field (some (joinQuoted delim (next :: fields)))).trans ?_
    rw [extend, dif_pos hGo, behind, hText, getline_followed hItem]
    exact hExtend
  have hRest : joinQuoted delim (next :: fields) = followed delim (item ++ more) tail' := by
    rw [append_assoc, followed_append, followed_append] at hWhole
    have hBehind := append_cancel_left hWhole
    rw [cons_append, followed_cons, followed_cons] at hBehind
    exact hText.trans (List.cons.inj hBehind).2
  rw [hRead]
  cases tail' with
  | none => exact Or.inl rfl
  | some after => exact Or.inr ⟨item ++ more, rfl, hRest⟩

/-- A field that is the last one, or does not end with a backslash, is read exactly. -/
theorem nextField_of_not_slash (hQuote : delim ≠ '"') (hNonempty : field ≠ []) (tail : Option (List Char))
    (h : tail = none ∨ field.getLast? ≠ some '\\') :
    nextField delim ⟨followed delim (quoted field) tail, true⟩ = (quoted field, behind tail) := by
  have hStop : ¬((behind tail).good && keepgoing (quoted field)) = true := by
    rcases h with rfl | hLast
    · exact Bool.false_ne_true
    · rw [Bool.and_eq_true, keepgoing_quoted hNonempty]
      exact fun h => hLast h.2
  rw [nextField_quoted hQuote, extend, dif_neg hStop]

theorem read_iff (hQuote : delim ≠ '"') (hSlash : delim ≠ '\\') (hNonempty : ∀ field ∈ fields, field ≠ []) :
    RoundTrips delim fields ↔ ∀ field ∈ fields.dropLast, field.getLast? ≠ some '\\' := by
  rw [RoundTrips, split]
  induction fields with
  | nil => simp [splitFrom]
  | cons field fields ih =>
    obtain ⟨hField, hRest⟩ := forall_mem_cons.mp hNonempty
    rw [length_cons, splitFrom, map_cons, List.cons.injEq]
    cases fields with
    | nil =>
      have hRead := nextField_of_not_slash hQuote hField none (Or.inl rfl)
      rw [joinQuoted_singleton, hRead, parseString_quoted]
      simp [splitFrom]
    | cons next fields =>
      rw [dropLast_cons_cons, forall_mem_cons]
      by_cases hLast : field.getLast? = some '\\'
      case pos =>
        have hBehind := behind_of_slash hQuote hField hLast |>.not_read hQuote hSlash (cons_ne_nil next fields) hRest
        exact iff_of_false (fun h => hBehind h.2) (fun h => h.1 hLast)
      case neg =>
        have hRead := nextField_of_not_slash hQuote hField (some (joinQuoted delim (next :: fields))) (Or.inr hLast)
        rw [joinQuoted_cons_cons, hRead, parseString_quoted]
        exact and_congr (iff_of_true rfl hLast) (ih hRest)

theorem roundTrips_iff {delim : Char} (hDelim : delim = ',' ∨ delim = '|') {fields : List (List Char)}
    (hNonempty : ∀ field ∈ fields, field ≠ []) :
    RoundTrips delim fields ↔ ∀ field ∈ fields.dropLast, field.getLast? ≠ some '\\' := by
  rcases hDelim with rfl | rfl
  · exact read_iff (by decide) (by decide) hNonempty
  · exact read_iff (by decide) (by decide) hNonempty

/-- A comma and a quote inside a field, a backslash at the front of one and at the end of the last. -/
theorem roundTrips_three : RoundTrips ',' [['a', ',', '"'], ['\\', 'b'], ['c', '\\']] :=
  (roundTrips_iff (Or.inl rfl) (by decide)).mpr (by decide)

/-- The second of two fields is lost when the first ends with a backslash. -/
theorem not_roundTrips_slash : ¬RoundTrips ',' [['a', '\\'], ['b']] := by
  rw [read_iff (by decide) (by decide) (by decide)]
  decide

end KushDB.Util
