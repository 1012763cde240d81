import Formula.Registry.Basic

/-!
# Tokens of a formula

A formula is cut into tokens, and the texts of its tokens, one after another, are the formula
again.  What cannot be read is a token too: an unknown character, or a second decimal point in a
number.  A hint has no text of its own; it stands before the tokens into which a function name that
is not called has been taken apart.

## Main definitions

* `Excerpt` — a text and the position where it starts.
* `Token` — a piece of a formula.
* `Token.text` — its characters.
* `isDelimiter` — the characters that end a word.
* `startsCall` — whether a text continues with an opening parenthesis.
-/

namespace Formula

/-- A piece of a formula at its position. -/
structure Excerpt where
  /-- The position of the first character. -/
  start : Nat
  /-- The characters. -/
  text : Text
  deriving DecidableEq, Repr

namespace Excerpt

/-- The number of characters. -/
def length (e : Excerpt) : Nat := e.text.length

/-- The position after the last character. -/
def stop (e : Excerpt) : Nat := e.start + e.text.length

end Excerpt

/-- A piece of a formula. -/
inductive Token
  /-- A blank character. -/
  | blank (c : Char)
  /-- An opening parenthesis. -/
  | opening
  /-- A closing parenthesis. -/
  | closing
  /-- A comma. -/
  | comma
  /-- A number. -/
  | number (text : Text)
  /-- A symbol, as it is written. -/
  | symbol (s : Symbol) (text : Text)
  /-- A character that belongs to no number and to no symbol. -/
  | unknown (c : Char)
  /-- A decimal point after a number that already has one. -/
  | repeatedPoint
  /-- A function name that is not followed by an opening parenthesis. -/
  | uncalled (name : Text)

namespace Token

/-- The characters of a token.  A hint has none, since the pieces of the name follow it. -/
def text : Token → Text
  | blank c => [c]
  | opening => ['(']
  | closing => [')']
  | comma => [',']
  | number t => t
  | symbol _ t => t
  | unknown c => [c]
  | repeatedPoint => ['.']
  | uncalled _ => []

end Token

/-- The characters that belong to no word: blanks, parentheses and commas. -/
def isDelimiter (c : Char) : Bool :=
  isBlank c || c = '(' || c = ')' || c = ','

/-- The token of a delimiter. -/
def Token.ofDelimiter (c : Char) : Token :=
  if c = '(' then opening else if c = ')' then closing else if c = ',' then comma else blank c

@[simp] theorem Token.text_ofDelimiter (c : Char) : (ofDelimiter c).text = [c] := by
  simp only [ofDelimiter]
  repeat' split
  all_goals simp_all [text]

/-- Whether the first character that is not blank is an opening parenthesis. -/
def startsCall (t : Text) : Bool :=
  (t.dropWhile isBlank).head? == some '('

end Formula
