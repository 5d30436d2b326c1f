import Mathlib.Data.List.Basic

/-! # Splitting a line of a CSV file

A line is read up to the next delimiter. What begins with a quote is read on to further delimiters as long as its last
two characters do not look like the end of a quoted field. A field is then parsed as a quoted string.
-/

namespace KushDB.Util

open List

/-- The text that is left, and whether an attempt to read has met its end. -/
structure Stream where
  rest : List Char
  good : Bool
deriving DecidableEq, Repr

/-- The text before the delimiter, and the text behind it if there is one. -/
def untilDelim (delim : Char) : List Char → List Char × Option (List Char)
  | [] => ([], none)
  | c :: text =>
    if c = delim then ([], some text)
    else ((c :: (untilDelim delim text).1), (untilDelim delim text).2)

def getline (delim : Char) (stream : Stream) : List Char × Stream :=
  if stream.good then
    match untilDelim delim stream.rest with
    | (item, none) => (item, ⟨[], false⟩)
    | (item, some rest) => (item, ⟨rest, true⟩)
  else ([], stream)

def keepgoing (s : List Char) : Bool :=
  if s.length < 2 then true
  else if s.length = 2 then s.getLast? != some '"'
  else if s.getLast? = some '"' then s[s.length - 2]? == some '\\'
  else true

variable {delim : Char}
variable {item text : List Char}

theorem untilDelim_spec {tail : Option (List Char)} (h : untilDelim delim text = (item, tail)) :
    text = item ++ tail.elim [] (delim :: ·) ∧ delim ∉ item := by
  induction text generalizing item with
  | nil =>
    obtain ⟨rfl, rfl⟩ := Prod.mk.inj h
    exact ⟨rfl, not_mem_nil⟩
  | cons c text ih =>
    rw [untilDelim] at h
    split at h
    case isTrue hEq =>
      obtain ⟨rfl, rfl⟩ := Prod.mk.inj h
      exact ⟨congrArg (· :: text) hEq, not_mem_nil⟩
    case isFalse hNe =>
      obtain ⟨rfl, hTail⟩ := Prod.mk.inj h
      obtain ⟨hText, hMem⟩ := @ih (untilDelim delim text).1 (Prod.ext rfl hTail)
      exact ⟨congrArg (c :: ·) hText, fun h => (mem_cons.mp h).elim (fun hEq => hNe hEq.symm) hMem⟩

/-- How much can still be read. -/
def Stream.left (stream : Stream) : Nat := if stream.good then stream.rest.length + 1 else 0

theorem left_getline {stream : Stream} (h : stream.good = true) : (getline delim stream).2.left < stream.left := by
  rw [getline, if_pos h]
  split
  case h_1 item hItem => simp [Stream.left, h]
  case h_2 item rest hItem =>
    have hText := congrArg List.length (untilDelim_spec hItem).1
    rw [length_append, Option.elim_some, length_cons] at hText
    simp only [Stream.left, h, if_true]
    omega

/-- The loop that reads on to further delimiters. -/
def extend (delim : Char) (toAdd : List Char) (stream : Stream) : List Char × Stream :=
  if _h : stream.good && keepgoing toAdd then
    let item := (getline delim stream).1
    extend delim (toAdd ++ delim :: item) (getline delim stream).2
  else (toAdd, stream)
termination_by stream.left
decreasing_by exact left_getline (Bool.and_eq_true_iff.mp _h).1

def nextField (delim : Char) (stream : Stream) : List Char × Stream :=
  let (toAdd, stream) := getline delim stream
  if toAdd.head? ≠ some '"' then (toAdd, stream) else extend delim toAdd stream

def splitFrom (delim : Char) : Nat → Stream → List (List Char)
  | 0, _ => []
  | numCols + 1, stream => (nextField delim stream).1 :: splitFrom delim numCols (nextField delim stream).2

def split (s : List Char) (delim : Char) (numCols : Nat) : List (List Char) := splitFrom delim numCols ⟨s, true⟩

/-! ## Quoted strings -/

def isSpace (c : Char) : Bool := c ∈ [' ', '\t', '\n', '\x0b', '\x0c', '\r']

/-- How `std::quoted` writes the characters between the quotes. -/
def escape (s : List Char) : List Char := s.flatMap fun c => if c = '"' ∨ c = '\\' then ['\\', c] else [c]

def quoted (s : List Char) : List Char := '"' :: escape s ++ ['"']

/-- How `std::quoted` reads on behind a quote. -/
def unescape : List Char → List Char
  | [] => []
  | c :: text =>
    if c = '\\' then
      match text with
      | [] => []
      | next :: text => next :: unescape text
    else if c = '"' then []
    else c :: unescape text

theorem unescape_quote (text : List Char) : unescape ('"' :: text) = [] := by
  rw [unescape.eq_def]
  simp

theorem unescape_slash (next : Char) (text : List Char) : unescape ('\\' :: next :: text) = next :: unescape text := by
  rw [unescape.eq_def]
  simp

theorem unescape_plain {c : Char} (hQuote : c ≠ '"') (hSlash : c ≠ '\\') (text : List Char) :
    unescape (c :: text) = c :: unescape text := by
  rw [unescape.eq_def]
  simp [hQuote, hSlash]

def readQuoted (text : List Char) : List Char :=
  match text.dropWhile isSpace with
  | [] => []
  | c :: rest => if c = '"' then unescape rest else (c :: rest).takeWhile fun c => !isSpace c

def parseString (s : List Char) : List Char :=
  if s = [] then s
  else readQuoted (if 2 ≤ s.length ∧ s.head? = some '"' ∧ s.getLast? = some '"' then s else '"' :: s ++ ['"'])

end KushDB.Util
