import Formula.Token.Basic

/-!
# The tree of a formula

A formula is a list of parts: numbers, symbols, groups in parentheses and calls.  A group holds a
list of parts itself; a call holds a list of slots, one for each argument, and a slot holds a list
of parts.  These lists are the *sibling lists* of the tree.  Operators stand in them side by side
with their operands; which operand belongs to which operator is not decided here.

The excerpt of a group includes its parentheses; the excerpt of a call is the function name alone.

## Main definitions

* `Part`, `Slot` — the tree.
* `Part.excerpt` — what is written.
* `Part.walk`, `walkAll` — all parts in the order in which they start.
-/

namespace Formula

mutual

/-- A part of a formula. -/
inductive Part
  /-- A number. -/
  | number (written : Excerpt)
  /-- An operator. -/
  | operator (op : Operator) (written : Excerpt)
  /-- A constant, with its registered literal and the text of its value. -/
  | constant (literal expression : Text) (written : Excerpt)
  /-- A free variable, with its registered literal. -/
  | free (literal : Text) (written : Excerpt)
  /-- A list of parts in parentheses. -/
  | group (written : Excerpt) (items : List Part)
  /-- A function name with the slots of its arguments. -/
  | call (f : Operation) (name : Excerpt) (slots : List Slot)

/-- The place of an argument in a call. -/
inductive Slot
  /-- What is written between two commas or parentheses, and its parts. -/
  | mk (written : Excerpt) (items : List Part)

end

namespace Slot

/-- What is written in a slot. -/
def excerpt : Slot → Excerpt
  | mk written _ => written

/-- The parts in a slot. -/
def items : Slot → List Part
  | mk _ items => items

/-- Whether a slot holds no part. -/
def isEmpty (s : Slot) : Bool := s.items.isEmpty

end Slot

namespace Part

/-- What is written; of a call, the function name. -/
def excerpt : Part → Excerpt
  | number e => e
  | operator _ e => e
  | constant _ _ e => e
  | free _ e => e
  | group e _ => e
  | call _ e _ => e

/-- The position of the first character. -/
def start (p : Part) : Nat := p.excerpt.start

/-- The position after the last character; of a call, after the function name. -/
def stop (p : Part) : Nat := p.excerpt.stop

/-- Whether a part is an operator. -/
def isOperator : Part → Bool
  | operator _ _ => true
  | _ => false

/-- The operation of an operator or a call. -/
def operation? : Part → Option Operation
  | operator op _ => some op.operation
  | call f _ _ => some f
  | _ => none

/-- The literal of a free variable. -/
def freeName? : Part → Option Text
  | free literal _ => some literal
  | _ => none

/-- The part of a symbol, where it is written. -/
def ofSymbol (s : Symbol) (written : Excerpt) : Part :=
  match s with
  | .operator op => operator op written
  | .function f => call f written []
  | .constant literal expression => constant literal expression written
  | .free literal => free literal written

@[simp] theorem excerpt_ofSymbol (s : Symbol) (written : Excerpt) :
    (ofSymbol s written).excerpt = written := by
  cases s <;> rfl

end Part

/-- The number of arguments that slots supply: none if there is a single slot and it is empty. -/
def suppliedArguments : List Slot → Nat
  | [] => 0
  | [s] => if s.isEmpty then 0 else 1
  | slots => slots.length

mutual

/-- A part and all parts inside it, in the order in which they start. -/
def Part.walk : Part → List Part
  | .group e items => .group e items :: walkAll items
  | .call f e slots => .call f e slots :: walkSlots slots
  | p => [p]

/-- The parts in a slot. -/
def Slot.walk : Slot → List Part
  | .mk _ items => walkAll items

/-- All parts of a sibling list. -/
def walkAll : List Part → List Part
  | [] => []
  | p :: ps => p.walk ++ walkAll ps

/-- All parts of the slots of a call. -/
def walkSlots : List Slot → List Part
  | [] => []
  | s :: ss => s.walk ++ walkSlots ss

end

end Formula
