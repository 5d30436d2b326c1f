import KushDB.Util.CsvSplit

/-! # Reading a quoted field

A quoted field is parsed back to its text, and what is parsed has no more delimiters than what was read. Inside a
quoted field the text read so far never looks complete, so a field is read at least to its closing quote. There it looks
complete unless the field ends with a backslash.
-/

namespace KushDB.Util

open List

/-! ## Escaping -/

theorem escape_cons (c : Char) (s : List Char) :
    escape (c :: s) = (if c = '"' ∨ c = '\\' then ['\\', c] else [c]) ++ escape s := rfl

theorem unescape_escape (s rest : List Char) : unescape (escape s ++ '"' :: rest) = s := by
  induction s with
  | nil => exact unescape_quote rest
  | cons c s ih =>
    rw [escape_cons, append_assoc]
    split
    case isTrue => exact (unescape_slash c _).trans (congrArg (c :: ·) ih)
    case isFalse h =>
      obtain ⟨hQuote, hSlash⟩ := not_or.mp h
      exact (unescape_plain hQuote hSlash _).trans (congrArg (c :: ·) ih)

variable {s item : List Char} {delim : Char}

/-- A quote inside a field stands behind a backslash. -/
theorem getLast?_of_escape_eq {before after : List Char} (h : escape s = before ++ '"' :: after) :
    before.getLast? = some '\\' := by
  induction s generalizing before with
  | nil => simp [escape] at h
  | cons c s ih =>
    rw [escape_cons] at h
    split at h
    case isTrue =>
      rcases before with _ | ⟨b, _ | ⟨b', before⟩⟩
      · simp at h
      · simp only [cons_append, nil_append, List.cons.injEq] at h
        rw [← h.1]
        rfl
      · simp only [cons_append, nil_append, List.cons.injEq] at h
        have hLast := ih h.2.2
        rw [getLast?_cons_cons, getLast?_cons, hLast]
        rfl
    case isFalse hPlain =>
      rcases before with _ | ⟨b, before⟩
      · simp only [cons_append, nil_append, List.cons.injEq] at h
        exact absurd (Or.inl h.1) hPlain
      · simp only [cons_append, nil_append, List.cons.injEq] at h
        rw [getLast?_cons, ih h.2]
        rfl

theorem getLast?_escape (s : List Char) : (escape s).getLast? = s.getLast? := by
  induction s with
  | nil => rfl
  | cons c s ih =>
    rw [escape_cons, getLast?_append, ih, getLast?_cons]
    cases s.getLast? with
    | some last => rfl
    | none => split <;> rfl

theorem count_escape (hQuote : delim ≠ '"') (hSlash : delim ≠ '\\') (s : List Char) :
    (escape s).count delim = s.count delim := by
  induction s with
  | nil => rfl
  | cons c s ih =>
    rw [escape_cons, count_append, ih, count_cons]
    split
    case isTrue h =>
      have hNe : c ≠ delim := by
        rintro rfl
        exact h.elim hQuote hSlash
      simp [hNe, hSlash.symm]
    case isFalse => simp [count_cons, Nat.add_comm]

theorem count_quoted (hQuote : delim ≠ '"') (hSlash : delim ≠ '\\') (s : List Char) :
    (quoted s).count delim = s.count delim := by
  simp [quoted, count_append, count_escape hQuote hSlash, hQuote.symm]

/-! ## Parsing -/

theorem unescape_sublist (text : List Char) : (unescape text).Sublist text := by
  induction text using unescape.induct with
  | case1 => exact List.Sublist.refl _
  | case2 => simp [unescape]
  | case3 next text ih =>
    rw [unescape_slash]
    exact (ih.cons_cons next).cons '\\'
  | case4 text =>
    rw [unescape_quote]
    exact nil_sublist _
  | case5 c text hSlash hQuote ih =>
    rw [unescape_plain hQuote hSlash]
    exact ih.cons_cons c

theorem readQuoted_sublist (text : List Char) : (readQuoted text).Sublist text := by
  have hDrop : (text.dropWhile isSpace).Sublist text := dropWhile_sublist isSpace
  rw [readQuoted]
  split
  case h_1 => exact nil_sublist _
  case h_2 c rest hText =>
    rw [hText] at hDrop
    split
    case isTrue => exact ((unescape_sublist rest).trans (sublist_cons_self c rest)).trans hDrop
    case isFalse => exact (takeWhile_sublist _).trans hDrop

theorem count_parseString_le (hQuote : delim ≠ '"') (s : List Char) : (parseString s).count delim ≤ s.count delim := by
  rw [parseString]
  split
  case isTrue => exact Nat.le_refl _
  case isFalse =>
    apply Nat.le_trans ((readQuoted_sublist _).count_le delim)
    split
    · exact Nat.le_refl _
    · simp [count_append, hQuote.symm]

theorem getLast?_quoted (s : List Char) : (quoted s).getLast? = some '"' := getLast?_concat

theorem length_quoted (s : List Char) : (quoted s).length = (escape s).length + 2 := by
  simp [quoted]

theorem parseString_quoted (s : List Char) : parseString (quoted s) = s := by
  have hWhole : 2 ≤ (quoted s).length ∧ (quoted s).head? = some '"' ∧ (quoted s).getLast? = some '"' :=
    ⟨by rw [length_quoted]; omega, rfl, getLast?_quoted s⟩
  have hDrop : (quoted s).dropWhile isSpace = quoted s := dropWhile_cons_of_neg (by decide)
  rw [parseString, if_neg (by simp [quoted]), if_pos hWhole, readQuoted, hDrop]
  exact unescape_escape s []

/-! ## Reading to a delimiter -/

theorem getline_of_not_good {stream : Stream} (h : stream.good = false) : getline delim stream = ([], stream) := by
  rw [getline, h]
  rfl

theorem untilDelim_of_not_mem (h : delim ∉ item) : untilDelim delim item = (item, none) := by
  induction item with
  | nil => rfl
  | cons c item ih =>
    obtain ⟨hNe, hMem⟩ := not_or.mp (mt mem_cons.mpr h)
    rw [untilDelim, if_neg (Ne.symm hNe), ih hMem]

theorem untilDelim_append (h : delim ∉ item) (rest : List Char) :
    untilDelim delim (item ++ delim :: rest) = (item, some rest) := by
  induction item with
  | nil => simp [untilDelim]
  | cons c item ih =>
    obtain ⟨hNe, hMem⟩ := not_or.mp (mt mem_cons.mpr h)
    rw [cons_append, untilDelim, if_neg (Ne.symm hNe), ih hMem]

/-- The stream behind a piece of text: its end, or the text behind a delimiter. -/
def behind : Option (List Char) → Stream
  | none => ⟨[], false⟩
  | some rest => ⟨rest, true⟩

/-- The text of a piece and of what follows it. -/
def followed (delim : Char) (piece : List Char) : Option (List Char) → List Char
  | none => piece
  | some rest => piece ++ delim :: rest

theorem followed_append (delim : Char) (before piece : List Char) (tail : Option (List Char)) :
    followed delim (before ++ piece) tail = before ++ followed delim piece tail := by
  cases tail with
  | none => rfl
  | some rest => exact append_assoc before piece (delim :: rest)

theorem followed_cons (delim c : Char) (piece : List Char) (tail : Option (List Char)) :
    followed delim (c :: piece) tail = c :: followed delim piece tail := followed_append delim [c] piece tail

theorem followed_followed (delim : Char) (item more : List Char) (tail : Option (List Char)) :
    followed delim (followed delim item (some more)) tail = followed delim item (some (followed delim more tail)) :=
  (followed_append delim item (delim :: more) tail).trans
    (congrArg (item ++ ·) (followed_cons delim delim more tail))

theorem getline_followed (h : delim ∉ item) (tail : Option (List Char)) :
    getline delim ⟨followed delim item tail, true⟩ = (item, behind tail) := by
  cases tail with
  | none => simp [getline, followed, untilDelim_of_not_mem h, behind]
  | some rest => simp [getline, followed, untilDelim_append h, behind]

theorem exists_followed (delim : Char) (text : List Char) :
    ∃ item tail, text = followed delim item tail ∧ delim ∉ item := by
  obtain ⟨hText, hItem⟩ := untilDelim_spec (rfl : untilDelim delim text = (_, _))
  refine ⟨_, (untilDelim delim text).2, hText.trans ?_, hItem⟩
  cases (untilDelim delim text).2 with
  | none => exact append_nil _
  | some rest => rfl

/-- What is read of a text is a piece of it, up to its end or a delimiter. -/
theorem extend_followed (delim : Char) (toAdd : List Char) (tail : Option (List Char)) :
    ∃ more tail', extend delim toAdd (behind tail) = (toAdd ++ more, behind tail') ∧
      followed delim toAdd tail = followed delim (toAdd ++ more) tail' := by
  generalize hStream : behind tail = stream
  induction toAdd, stream using extend.induct delim generalizing tail with
  | case1 toAdd stream hGo item ih =>
    cases tail with
    | none => simp [← hStream, behind] at hGo
    | some rest =>
      obtain ⟨item', tail', rfl, hItem⟩ := exists_followed delim rest
      have hLine : getline delim stream = (item', behind tail') := hStream ▸ getline_followed hItem tail'
      have hItemEq : item = item' := congrArg Prod.fst hLine
      obtain ⟨more, tail'', hExtend, hText⟩ := ih tail' (congrArg Prod.snd hLine).symm
      refine ⟨delim :: item' ++ more, tail'', ?_, ?_⟩
      · rw [extend, dif_pos hGo]
        have hWhole : toAdd ++ (delim :: item' ++ more) = toAdd ++ delim :: item ++ more := by
          rw [hItemEq, append_assoc]
        exact hExtend.trans (congrArg (·, behind tail'') hWhole.symm)
      · rw [hItemEq, followed_append, append_assoc] at hText
        rw [← hText]
        exact congrArg (toAdd ++ ·) (followed_cons delim delim item' tail').symm
  | case2 toAdd stream hStop =>
    refine ⟨[], tail, ?_, ?_⟩
    · rw [extend, dif_neg hStop, append_nil, hStream]
    · rw [append_nil]

theorem nextField_followed (delim : Char) (text : List Char) :
    ∃ item tail, nextField delim ⟨text, true⟩ = (item, behind tail) ∧ text = followed delim item tail := by
  obtain ⟨item, tail, rfl, hItem⟩ := exists_followed delim text
  rw [nextField, getline_followed hItem]
  dsimp only
  split
  case isTrue => exact ⟨item, tail, rfl, rfl⟩
  case isFalse =>
    obtain ⟨more, tail', hExtend, hText⟩ := extend_followed delim item tail
    exact ⟨item ++ more, tail', hExtend, hText⟩

/-! ## A quoted field at the front -/

theorem keepgoing_of_ne (h : s.getLast? ≠ some '"') : keepgoing s = true := by
  rw [keepgoing]
  split
  case isTrue => rfl
  case isFalse =>
    split
    case isTrue => exact bne_iff_ne.mpr h
    case isFalse => simp

/-- A quote at the end closes the field unless a backslash stands before it. -/
theorem keepgoing_quote {front : List Char} (hFront : front ≠ []) (c : Char) :
    keepgoing (front ++ [c] ++ ['"']) = (c == '\\') := by
  have hLength : 0 < front.length := length_pos_of_ne_nil hFront
  have hSecond : (front ++ [c] ++ ['"'])[(front ++ [c] ++ ['"']).length - 2]? = some c := by
    simp
  have hSize : (front ++ [c] ++ ['"']).length = front.length + 2 := by
    simp
  rw [keepgoing, hSecond, getLast?_concat, hSize, if_neg (by omega), if_neg (by omega), if_pos rfl]
  rfl

variable {acc more : List Char}

/-- Inside a field the text before a delimiter is never complete. -/
theorem keepgoing_inside (hQuote : delim ≠ '"') (h : quoted s = acc ++ delim :: more) : keepgoing acc = true := by
  rcases acc with _ | ⟨c, body⟩
  · exact absurd (List.cons.inj h).1.symm hQuote
  obtain ⟨rfl, hRest⟩ : '"' = c ∧ escape s ++ ['"'] = body ++ delim :: more := List.cons.inj h
  by_cases hLast : ('"' :: body).getLast? = some '"'
  case neg => exact keepgoing_of_ne hLast
  case pos =>
    rcases eq_nil_or_concat' body with rfl | ⟨before, last, rfl⟩
    · rfl
    obtain rfl : last = '"' := by
      rw [← cons_append, getLast?_concat] at hLast
      exact Option.some.inj hLast
    -- the closing quote stands behind the delimiter, so that this one is inside the field
    rcases eq_nil_or_concat' more with rfl | ⟨more', final, rfl⟩
    · exact absurd (append_inj' hRest rfl).2 (by simpa using hQuote.symm)
    have hInner : escape s = before ++ '"' :: (delim :: more') := by
      have hAppend : escape s ++ ['"'] = (before ++ '"' :: (delim :: more')) ++ [final] := by
        rw [hRest]
        simp
      exact (append_inj' hAppend rfl).1
    obtain ⟨init, rfl⟩ := getLast?_eq_some_iff.mp (getLast?_of_escape_eq hInner)
    exact keepgoing_quote (cons_ne_nil '"' init) '\\'

theorem keepgoing_quoted (hNonempty : s ≠ []) : keepgoing (quoted s) = true ↔ s.getLast? = some '\\' := by
  obtain ⟨last, hLast⟩ : ∃ last, s.getLast? = some last := ⟨_, getLast?_eq_some_getLast hNonempty⟩
  obtain ⟨init, hEscape⟩ := getLast?_eq_some_iff.mp ((getLast?_escape s).trans hLast)
  rw [quoted, hEscape, hLast, ← cons_append, keepgoing_quote (cons_ne_nil '"' init), beq_iff_eq,
    Option.some.injEq]

/-- A field is read at least to its closing quote. -/
theorem extend_inside (hQuote : delim ≠ '"') (s : List Char) (tail : Option (List Char))
    (h : quoted s = acc ++ delim :: more) :
    extend delim acc ⟨followed delim more tail, true⟩ = extend delim (quoted s) (behind tail) := by
  -- induction on the text of the field that has not been read
  induction hLength : more.length using Nat.strongRecOn generalizing acc more with
  | ind length ih =>
    rw [extend, dif_pos (by rw [keepgoing_inside hQuote h]; rfl)]
    obtain ⟨item, tail', hMore, hItem⟩ := exists_followed delim more
    cases tail' with
    | none =>
      obtain rfl : more = item := hMore
      rw [getline_followed hItem tail, h]
    | some more' =>
      rw [hMore, followed_followed, getline_followed hItem]
      apply ih more'.length _ _ rfl
      · rw [← hLength, hMore, followed, length_append, length_cons]
        omega
      · rw [h, hMore, followed, append_assoc, cons_append]

theorem nextField_quoted (hQuote : delim ≠ '"') (s : List Char) (tail : Option (List Char)) :
    nextField delim ⟨followed delim (quoted s) tail, true⟩ = extend delim (quoted s) (behind tail) := by
  obtain ⟨item, tail', hText, hItem⟩ := exists_followed delim (quoted s)
  have hHead : item.head? = some '"' := by
    rcases item with _ | ⟨c, item⟩
    · cases tail' with
      | none => simp [quoted, followed] at hText
      | some rest => exact absurd (List.cons.inj hText).1.symm hQuote
    · cases tail' with
      | none => exact congrArg some (List.cons.inj hText).1.symm
      | some rest => exact congrArg some (List.cons.inj hText).1.symm
  cases tail' with
  | none =>
    rw [followed] at hText
    rw [hText, nextField, getline_followed hItem]
    exact if_neg (not_not.mpr hHead)
  | some more =>
    rw [← extend_inside hQuote s tail hText, hText, followed_followed, nextField, getline_followed hItem]
    exact if_neg (not_not.mpr hHead)

end KushDB.Util
