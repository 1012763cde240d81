import Formula.ParseError
import Formula.Part.Basic

/-!
# Operands and arguments

An operator needs an operand on either side, unless that operand has a default value, and a call
needs as many arguments as its function takes.  What is missing is reported, the parts inside a
part before the part itself.

A missing operand is not reported if an unknown identifier stands in its place, which is the gap
between the operator and its neighbour or the end of the sibling list.
-/

namespace Formula

/-- Whether one of the given positions lies from `a` up to `b`. -/
def anyWithin (positions : List Nat) (a b : Nat) : Bool :=
  positions.any fun n => a ≤ n && n < b

/-- The error of an operator that lacks an operand.  The gap to its left starts at `gap`, and its
sibling list ends at `stop`. -/
def lackingOperand (unknowns : List Nat) (op : Operator) (written : Excerpt)
    (hasLeft hasRight : Bool) (gap stop : Nat) : List ParseError :=
  let lacksLeft := !hasLeft && !op.leftOptional && !anyWithin unknowns gap written.start
  let lacksRight := !hasRight && !op.rightOptional && !anyWithin unknowns written.stop stop
  if lacksLeft || lacksRight then
    [⟨.operatorArguments op.operation.signature, written.start, written.length⟩]
  else []

/-- The errors of the empty slots of a call with several slots. -/
def emptySlotErrors (slots : List Slot) : List ParseError :=
  if slots.length ≤ 1 then []
  else (slots.filter (·.isEmpty)).map fun s =>
    ⟨.emptyArgument, s.excerpt.start, s.excerpt.length⟩

/-- What is wrong with the arguments of a call. -/
def callErrors (f : Operation) (name : Excerpt) (slots : List Slot) : List ParseError :=
  let supplied := suppliedArguments slots
  emptySlotErrors slots ++
    if f.signature.accepts supplied then []
    else [⟨.functionArguments f.signature supplied, name.start, name.length⟩]

/-- The errors of the operators and calls of a sibling list that ends at `stop`, apart from what is
inside them.  `hasLeft` says whether a value stands before the list, and `gap` where the part before
it ends. -/
def siblingErrors (unknowns : List Nat) (stop : Nat) (hasLeft : Bool) (gap : Nat) :
    List Part → List ParseError
  | [] => []
  | p :: ps =>
    let own := match p with
      | .operator op e => lackingOperand unknowns op e hasLeft (!ps.isEmpty) gap stop
      | .call f e slots => callErrors f e slots
      | _ => []
    own ++ siblingErrors unknowns stop (!p.isOperator) p.stop ps

mutual

/-- The errors inside a part. -/
def Part.innerErrors (unknowns : List Nat) : Part → List ParseError
  | .group e items =>
    innerErrorsAll unknowns items ++ siblingErrors unknowns e.stop false e.start items
  | .call _ _ slots => slotErrors unknowns slots
  | _ => []

/-- The errors in a slot. -/
def Slot.errors (unknowns : List Nat) : Slot → List ParseError
  | .mk e items =>
    innerErrorsAll unknowns items ++ siblingErrors unknowns e.stop false e.start items

/-- The errors inside the parts of a sibling list. -/
def innerErrorsAll (unknowns : List Nat) : List Part → List ParseError
  | [] => []
  | p :: ps => p.innerErrors unknowns ++ innerErrorsAll unknowns ps

/-- The errors in the slots of a call. -/
def slotErrors (unknowns : List Nat) : List Slot → List ParseError
  | [] => []
  | s :: ss => s.errors unknowns ++ slotErrors unknowns ss

end

/-- The errors of the sibling list that is the whole formula, from position zero up to `stop`. -/
def argumentErrors (unknowns : List Nat) (stop : Nat) (items : List Part) : List ParseError :=
  innerErrorsAll unknowns items ++ siblingErrors unknowns stop false 0 items

end Formula
