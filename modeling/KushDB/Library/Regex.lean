import Mathlib.Data.List.Basic

/-! # Regular expressions without groups

A regular expression is read from its text in two steps, tokens and then pieces: anchors, and atoms that stand alone
or are repeated. Groups, classes, alternatives and counted repetitions are not read. `fullMatch` is the reference
that a matching engine is measured by; the dot stands for any character but a newline.
-/

namespace KushDB.Regex

inductive Atom
  | any
  | char (c : Char)
deriving DecidableEq, Repr

def Atom.accepts : Atom → Char → Bool
  | .any, c => c ≠ '\n'
  | .char expected, c => c = expected

inductive Token
  | start
  | finish
  | star
  | atom (atom : Atom)
deriving DecidableEq, Repr

inductive Piece
  | start
  | finish
  | one (atom : Atom)
  | many (atom : Atom)
deriving DecidableEq, Repr

def metacharacters : List Char := ['.', '+', '*', '?', '^', '$', '(', ')', '[', ']', '\x7b', '\x7d', '|', '\\']

/-- A character that is not escaped. -/
def symbol (c : Char) : Option Token :=
  if c = '^' then some .start
  else if c = '$' then some .finish
  else if c = '*' then some .star
  else if c = '.' then some (.atom .any)
  else if c ∈ metacharacters then none
  else some (.atom (.char c))

def lex : List Char → Option (List Token)
  | [] => some []
  | c :: rest =>
    if c = '\\' then
      match rest with
      | [] => none
      | escaped :: rest => if escaped ∈ metacharacters then (lex rest).map (.atom (.char escaped) :: ·) else none
    else (symbol c).bind fun token => (lex rest).map (token :: ·)

def group : List Token → Option (List Piece)
  | [] => some []
  | .start :: rest => (group rest).map (.start :: ·)
  | .finish :: rest => (group rest).map (.finish :: ·)
  | .star :: _ => none
  | .atom atom :: .star :: rest => (group rest).map (.many atom :: ·)
  | .atom atom :: rest => (group rest).map (.one atom :: ·)

/-- The pieces match the whole text. The flag says that the text begins here. -/
def matchesAll : List Piece → Bool → List Char → Bool
  | [], _, text => text.isEmpty
  | .start :: pieces, atStart, text => atStart && matchesAll pieces atStart text
  | .finish :: pieces, atStart, text => text.isEmpty && matchesAll pieces atStart text
  | .one atom :: pieces, _, text =>
    match text with
    | [] => false
    | c :: text => atom.accepts c && matchesAll pieces false text
  | .many atom :: pieces, atStart, text =>
    (List.range (text.length + 1)).any fun count =>
      (text.take count).all atom.accepts && matchesAll pieces (atStart && count == 0) (text.drop count)

/-- Nothing for a text that is no regular expression of this kind. -/
def fullMatch (regex text : List Char) : Option Bool :=
  ((lex regex).bind group).map fun pieces => matchesAll pieces true text

theorem group_one {atom : Atom} {rest : List Token} (h : rest.head? ≠ some .star) :
    group (.atom atom :: rest) = (group rest).map (.one atom :: ·) := by
  cases rest with
  | nil => rfl
  | cons token rest =>
    cases token with
    | star => exact absurd rfl h
    | start => rfl
    | finish => rfl
    | atom other => rfl

variable {c : Char}

theorem lex_escaped (h : c ∈ metacharacters) (rest : List Char) :
    lex ('\\' :: c :: rest) = (lex rest).map (.atom (.char c) :: ·) := by
  rw [lex.eq_def]
  simp only [if_true, if_pos h]

theorem lex_symbol {token : Token} (hPlain : c ≠ '\\') (h : symbol c = some token) (rest : List Char) :
    lex (c :: rest) = (lex rest).map (token :: ·) := by
  rw [lex.eq_def]
  simp only [if_neg hPlain, h, Option.bind_some]

theorem symbol_plain (h : c ∉ metacharacters) : symbol c = some (.atom (.char c)) := by
  have hNe : ∀ other ∈ metacharacters, c ≠ other := fun other hOther hEq => h (hEq ▸ hOther)
  rw [symbol, if_neg (hNe _ (by decide)), if_neg (hNe _ (by decide)), if_neg (hNe _ (by decide)),
    if_neg (hNe _ (by decide)), if_neg h]

end KushDB.Regex
