import Mathlib.Computability.StateTransition
import Formula.Parse

/-!
# A scan with a cursor

A formula can be read by a loop that looks at the character under a cursor.  Each sibling list, of
the formula, of a group or of an argument, is read by an activation of the loop of its own, with a
word of its own; an opening parenthesis starts an activation, and the one around it waits until that
has returned.  All of them move the same cursor.

An iteration does not always move it.  A character that ends a number or cannot extend a word stays
under the cursor, the word is taken in and cleared, and the next iteration looks at the character
again.  So reading does not end simply because the formula does: that is what the modules on the
scan are about.

The scan is given step by step, with the waiting activations as a stack.  What becomes of a word is
said by positions in the formula, and the tree is built by the builder, which is told for each token
where it stands.
-/

namespace Formula

/-- What an activation reads. -/
inductive Scan.Scope
  /-- The formula or a group. -/
  | group
  /-- An argument of a call. -/
  | argument
  deriving DecidableEq, Repr

/-- How an activation returns. -/
inductive Scan.Closing
  /-- After a closing parenthesis. -/
  | parenthesis
  /-- After a comma. -/
  | comma
  /-- At the end of the formula. -/
  | finish
  deriving DecidableEq, Repr

/-- The word that an activation has read and not yet taken in. -/
structure Scan.Word where
  /-- The characters, in lower case. -/
  text : Text
  /-- The position of the first one. -/
  start : Nat
  /-- Whether the word is a number. -/
  inNumber : Bool
  /-- Whether it may not take a point any more, if it is. -/
  hasPoint : Bool
  deriving DecidableEq, Repr

namespace Scan.Word

/-- The word of an activation that starts. -/
def empty : Word := ⟨[], 0, false, false⟩

/-- A word with a character added, which stands at a position. -/
def push (w : Word) (c : Char) (position : Nat) : Word :=
  { w with text := w.text ++ [c], start := if w.text = [] then position else w.start }

/-- A word that has been taken in. -/
def clear (w : Word) : Word :=
  { w with text := [], inNumber := false, hasPoint := false }

/-- The position after the last character. -/
def stop (w : Word) : Nat := w.start + w.text.length

/-- Whether nothing is pending. -/
def IsClear (w : Word) : Prop := w.text = [] ∧ w.inNumber = false

theorem isClear_empty : empty.IsClear := ⟨rfl, rfl⟩

theorem isClear_clear (w : Word) : w.clear.IsClear := ⟨rfl, rfl⟩

end Scan.Word

/-- An activation of the loop. -/
structure Scan.Activation where
  /-- What it reads. -/
  scope : Scan.Scope
  /-- The number of parentheses around it. -/
  depth : Nat
  /-- Its word. -/
  word : Scan.Word
  deriving DecidableEq, Repr

/-- A formula that is being read. -/
structure Scan where
  /-- The position of the next character. -/
  cursor : Nat
  /-- The activation that runs, or the one that has just returned. -/
  current : Scan.Activation
  /-- How it has returned, if it has. -/
  closing? : Option Scan.Closing
  /-- The activations that wait, the innermost one first. -/
  callers : List Scan.Activation
  /-- What has been built. -/
  built : Builder

namespace Scan

/-- The activation that runs has a new word. -/
def setWord (s : Scan) (w : Word) : Scan :=
  { s with current := { s.current with word := w } }

/-- The cursor moves to the next character. -/
def advance (s : Scan) : Scan :=
  { s with cursor := s.cursor + 1 }

/-- The activation that runs returns. -/
def leave (s : Scan) (closing : Closing) : Scan :=
  { s with closing? := some closing }

/-- The builder takes in tokens of which the first one stands at a position. -/
def emit (text : Text) (s : Scan) (position : Nat) (ts : List Token) : Scan :=
  { s with built := Builder.run text { s.built with position := position } ts }

/-- An error is added. -/
def report (s : Scan) (e : ParseError) : Scan :=
  { s with built := s.built.report e }

section Words

variable (r : Registry) (text : Text)

/-- The pieces of what is written between two positions. -/
def cutAt (start stop : Nat) : List Token :=
  decompose r (text.drop stop) (text.slice start stop)

/-- The tokens of a symbol that is spelled at a position. -/
def resolveAt (s : Symbol) (start : Nat) : List Token :=
  let stop := start + s.literal.length
  if s.isCallable && !startsCall (text.lower.drop stop) then
    .uncalled (text.slice start stop) :: cutAt r text start stop
  else [.symbol s (text.slice start stop)]

/-- The tokens of a word that a delimiter, or a character after a number, has ended. -/
def closedTokens (w : Word) : List Token :=
  if Numeral.isPlain w.text then [.number (text.slice w.start w.stop)]
  else match r.get? w.text with
    | some s => resolveAt r text s w.start
    | none => cutAt r text w.start w.stop

/-- The tokens of a word that the character under the cursor cannot extend. -/
def brokenTokens (w : Word) (cursor : Nat) : List Token :=
  match r.get? w.text with
  | some s => resolveAt r text s w.start
  | none =>
    if Numeral.isPlain w.text then [.number (text.slice w.start cursor)]
    else cutAt r text w.start w.stop

/-- The pending word is taken in. -/
def flush (s : Scan) : Scan :=
  let w := s.current.word
  if w.text = [] then s
  else (s.emit text w.start (closedTokens r text w)).setWord w.clear

/-- A word of which no symbol starts is given up without its last character.  If nothing else is
left of it, that character is unknown; otherwise it stays under the cursor. -/
def backOff (s : Scan) : Scan :=
  let w := { s.current.word with text := s.current.word.text.dropLast }
  if w.text = [] then
    ((s.emit text s.cursor ((text.slice s.cursor (s.cursor + 1)).map .unknown)).setWord
      w.clear).advance
  else (s.emit text w.start (brokenTokens r text w s.cursor)).setWord w.clear

/-- A character after a number. -/
def extendNumber (c : Char) (s : Scan) : Scan :=
  let longer := s.current.word.push c s.cursor
  if c.isDigit then (s.setWord longer).advance
  else if c = '.' then
    if s.current.word.hasPoint then
      ((s.flush r text).report ⟨.repeatedPoint, s.cursor, 1⟩).advance
    else (s.setWord { longer with hasPoint := true }).advance
  else s.flush r text

/-- A character after a word that is no number. -/
def extendWord (c : Char) (s : Scan) : Scan :=
  let longer := s.current.word.push c s.cursor
  match r.startingWith longer.text with
  | [found] =>
    if found.key = longer.text then
      ((s.setWord longer.clear).advance).emit text longer.start (resolveAt r text found longer.start)
    else (s.setWord longer).advance
  | _ :: _ :: _ => (s.setWord longer).advance
  | [] =>
    if startsNumeral longer.text (text.lower.drop (s.cursor + 1)) then
      (s.setWord { longer with inNumber := true, hasPoint := c = '.' }).advance
    else (s.setWord longer).backOff r text

end Words

/-- Whether the last part, which comes first here, is a function name that waits for its
parenthesis. -/
def opensCall : List Part → Bool
  | .call _ _ [] :: _ => true
  | _ => false

/-- The parenthesis under the cursor starts an activation. -/
def enter (s : Scan) : Scan where
  cursor := s.cursor + 1
  current := ⟨if opensCall s.built.items then .argument else .group, s.current.depth + 1, .empty⟩
  closing? := none
  callers := s.current :: s.callers
  built := Builder.openBracket { s.built with position := s.cursor }

/-- The innermost parenthesis is closed at the end of the formula, where it is missed. -/
def closeUnfinished (text : Text) (stop : Nat) (b : Builder) : Builder :=
  match b.frames with
  | [] => b
  | f :: outer =>
    Builder.report { b with items := Builder.close text f b.items stop stop, frames := outer }
      ⟨.unmatchedOpening, f.position, 1⟩

variable (r : Registry) (text : Text)

/-- What the activation that runs does with the character under the cursor, given in lower case. -/
def iterate (c : Char) (s : Scan) : Scan :=
  if c = ')' then
    if 0 < s.current.depth then ((s.flush r text).advance).leave .parenthesis
    else ((s.flush r text).advance).report ⟨.unmatchedClosing, s.cursor, 1⟩
  else if c = '(' then (s.flush r text).enter
  else if c = ',' then
    if s.current.scope = .argument then ((s.flush r text).advance).leave .comma
    else ((s.flush r text).advance).report ⟨.misplacedComma, s.cursor, 1⟩
  else if isBlank c then (s.flush r text).advance
  else if s.current.word.inNumber then s.extendNumber r text c
  else s.extendWord r text c

/-- An activation has returned, and the innermost one that waits goes on: a comma starts the next
argument, and otherwise the group or the call is complete. -/
def resume (closing : Closing) (caller : Activation) (outer : List Activation) (s : Scan) : Scan :=
  match closing with
  | .parenthesis =>
    ⟨s.cursor, caller, none, outer,
      Builder.closeBracket text { s.built with position := s.cursor - 1 }⟩
  | .comma =>
    ⟨s.cursor, ⟨.argument, s.current.depth, .empty⟩, none, caller :: outer,
      Builder.separate text { s.built with position := s.cursor - 1 }⟩
  | .finish => ⟨s.cursor, caller, none, outer, closeUnfinished text s.cursor s.built⟩

/-- The next state, unless the activation for the whole formula has returned. -/
def step (s : Scan) : Option Scan :=
  match s.closing?, s.callers with
  | none, _ =>
    match text.lower[s.cursor]? with
    | some c => some (s.iterate r text c)
    | none => some ((s.flush r text).leave .finish)
  | some closing, caller :: outer => some (s.resume text closing caller outer)
  | some _, [] => none

/-- A formula of which nothing has been read. -/
def start : Scan := ⟨0, ⟨.group, 0, .empty⟩, none, [], .empty⟩

/-- The formula as read, when the activation for the whole formula has returned. -/
def result (s : Scan) : Parse :=
  let items := s.built.items.reverse
  let found := s.built.errors
  { registry := r
    text := text
    items := items
    errors := collapse (found ++ argumentErrors (unknownPositions found) text.length items)
    hints := s.built.hints }

end Scan

end Formula
