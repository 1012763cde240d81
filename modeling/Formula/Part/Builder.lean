import Formula.ParseError
import Formula.Part.Basic

/-!
# Building the tree from the tokens

The tokens are taken one after another, with a stack of the parentheses that are open.  An opening
parenthesis starts the slots of a call if a function name stands before it, and a group otherwise.
A closing parenthesis that closes nothing and a comma outside of a call are reported and skipped;
parentheses that are still open at the end are closed there and reported, the innermost first.

A number right after a minus sign that begins a sibling list is a negative number; the sign is part
of it.

## Main definitions

* `Bracket`, `Frame` — an open parenthesis and what stands before it.
* `Builder` — what has been built so far.
* `Builder.push`, `Builder.step`, `Builder.run` — tokens taken in.
* `Builder.finish` — the end of the formula.
-/

namespace Formula

/-- What an open parenthesis begins. -/
inductive Bracket
  /-- A group. -/
  | group
  /-- The slots of a call; those that are complete, the last one first, and the position where the
  current one starts. -/
  | call (f : Operation) (name : Excerpt) (slots : List Slot) (slotStart : Nat)

/-- An open parenthesis. -/
structure Frame where
  /-- What it begins. -/
  bracket : Bracket
  /-- The position of the parenthesis. -/
  position : Nat
  /-- The parts before it in its sibling list, the last one first. -/
  before : List Part

/-- What has been built so far. -/
structure Builder where
  /-- The number of characters taken in. -/
  position : Nat
  /-- The parts of the innermost sibling list, the last one first. -/
  items : List Part
  /-- The open parentheses, the innermost one first. -/
  frames : List Frame
  /-- The errors found. -/
  errors : List ParseError
  /-- The hints found. -/
  hints : List Hint

namespace Builder

/-- Nothing taken in. -/
def empty : Builder := ⟨0, [], [], [], []⟩

/-- A part added to a sibling list, the last part first.  A number joins a minus sign that it
touches if nothing else is in the list. -/
def push (p : Part) (items : List Part) : List Part :=
  match p, items with
  | .number e, [.operator op sign] =>
    if op.literal = ['-'] && sign.stop = e.start then [.number ⟨sign.start, sign.text ++ e.text⟩]
    else p :: items
  | _, _ => p :: items

/-- The part of a frame that is closed, and the parts before it.  `text` is the whole formula, the
innermost list ends at `inner`, and the parenthesis, if any, at `outer`. -/
def close (text : Text) (f : Frame) (items : List Part) (inner outer : Nat) : List Part :=
  match f.bracket with
  | .group => .group ⟨f.position, text.slice f.position outer⟩ items.reverse :: f.before
  | .call g name slots slotStart =>
    let last := Slot.mk ⟨slotStart, text.slice slotStart inner⟩ items.reverse
    .call g name (last :: slots).reverse :: f.before

/-- An error added. -/
def report (b : Builder) (e : ParseError) : Builder :=
  { b with errors := b.errors ++ [e] }

/-- The builder after the parenthesis at its position is opened. -/
def openBracket (b : Builder) : Builder :=
  match b.items with
  | .call f name [] :: before =>
    let frame := ⟨.call f name [] (b.position + 1), b.position, before⟩
    { b with items := [], frames := frame :: b.frames }
  | before => { b with items := [], frames := ⟨.group, b.position, before⟩ :: b.frames }

/-- The builder after a closing parenthesis at its position. -/
def closeBracket (text : Text) (b : Builder) : Builder :=
  match b.frames with
  | [] => b.report ⟨.unmatchedClosing, b.position, 1⟩
  | f :: outer =>
    { b with items := close text f b.items b.position (b.position + 1), frames := outer }

/-- The builder after a comma at its position. -/
def separate (text : Text) (b : Builder) : Builder :=
  match b.frames with
  | ⟨.call f name slots slotStart, opened, before⟩ :: outer =>
    let slot := Slot.mk ⟨slotStart, text.slice slotStart b.position⟩ b.items.reverse
    let frame := ⟨.call f name (slot :: slots) (b.position + 1), opened, before⟩
    { b with items := [], frames := frame :: outer }
  | _ => b.report ⟨.misplacedComma, b.position, 1⟩

/-- What a token does at the position of the builder, which stays where it is. -/
def take (text : Text) (b : Builder) : Token → Builder
  | .blank _ => b
  | .opening => b.openBracket
  | .closing => b.closeBracket text
  | .comma => b.separate text
  | .number t => { b with items := push (.number ⟨b.position, t⟩) b.items }
  | .symbol s t => { b with items := push (.ofSymbol s ⟨b.position, t⟩) b.items }
  | .unknown c => b.report (.unknown [c] b.position)
  | .repeatedPoint => b.report ⟨.repeatedPoint, b.position, 1⟩
  | .uncalled name => { b with hints := b.hints ++ [⟨name, b.position⟩] }

/-- A token taken in. -/
def step (text : Text) (b : Builder) (t : Token) : Builder :=
  { b.take text t with position := b.position + t.text.length }

/-- Tokens taken in, from left to right. -/
def run (text : Text) (b : Builder) (ts : List Token) : Builder :=
  ts.foldl (step text) b

/-- Open frames closed at the end of the formula, the innermost one first. -/
def closeAll (text : Text) (stop : Nat) (items : List Part) : List Frame → List Part
  | [] => items
  | f :: outer => closeAll text stop (close text f items stop stop) outer

/-- The errors of the parentheses that are still open, the innermost one first. -/
def unclosed (frames : List Frame) : List ParseError :=
  frames.map fun f => ⟨.unmatchedOpening, f.position, 1⟩

/-- The sibling list of the whole formula, in order. -/
def finish (text : Text) (b : Builder) : List Part :=
  (closeAll text b.position b.items b.frames).reverse

/-- All errors of the tokens. -/
def allErrors (b : Builder) : List ParseError :=
  b.errors ++ unclosed b.frames

@[simp] theorem position_step (text : Text) (b : Builder) (t : Token) :
    (b.step text t).position = b.position + t.text.length := rfl

/-- A builder stands after the characters that it has taken in. -/
theorem position_run (text : Text) (b : Builder) (ts : List Token) :
    (b.run text ts).position = b.position + (ts.flatMap Token.text).length := by
  induction ts generalizing b with
  | nil => rfl
  | cons t ts ih =>
    rw [run, List.foldl_cons, ← run, ih, position_step]
    simp only [List.flatMap_cons, List.length_append]
    omega

end Builder

end Formula
