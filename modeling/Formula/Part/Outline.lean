import Formula.Part.Basic

/-!
# The outline of a tree

The outline lists a tree one row per part, slot and comma, in the order in which they start.  A row
says how deep it stands, what it is, what is written, and how many operands or arguments are
supplied: an operator counts the operand before it, unless that is an operator, and anything after
it.

## Main definitions

* `Row` — a line of the outline.
* `Part.rows`, `rowsOf` — the rows of a tree.
* `Row.text`, `Part.outline` — the printed outline.
-/

namespace Formula

/-- What a row of the outline stands for. -/
inductive Row.Kind
  /-- An operator. -/
  | operator
  /-- A call. -/
  | function
  /-- A constant. -/
  | constant
  /-- A free variable. -/
  | free
  /-- A number. -/
  | number
  /-- A group. -/
  | group
  /-- A comma between two slots. -/
  | separator
  /-- A slot. -/
  | argument
  deriving DecidableEq, Repr

/-- The name of a kind. -/
def Row.Kind.name : Row.Kind → Text
  | operator => "operator".toList
  | function => "function".toList
  | constant => "constant".toList
  | free => "variable".toList
  | number => "number".toList
  | group => "group".toList
  | separator => "argument separator".toList
  | argument => "argument".toList

/-- A line of the outline. -/
structure Row where
  /-- How many parts and slots are around it. -/
  depth : Nat
  /-- What it is. -/
  kind : Row.Kind
  /-- What is written. -/
  written : Excerpt
  /-- The registered literal of a symbol. -/
  literal? : Option Text
  /-- The operands or arguments that are supplied. -/
  supplied? : Option Nat
  /-- The number of slots of a call. -/
  slots : Nat
  deriving DecidableEq, Repr

/-- The number of operands of an operator with the given neighbours. -/
def operandCount (hasLeft hasRight : Bool) : Nat :=
  hasLeft.toNat + hasRight.toNat

mutual

/-- The rows of a part.  The number of operands matters for an operator only. -/
def Part.rows (depth operands : Nat) : Part → List Row
  | .number e => [⟨depth, .number, e, none, none, 0⟩]
  | .operator op e => [⟨depth, .operator, e, some op.literal, some operands, 0⟩]
  | .constant literal _ e => [⟨depth, .constant, e, some literal, none, 0⟩]
  | .free literal e => [⟨depth, .free, e, some literal, none, 0⟩]
  | .group e items => ⟨depth, .group, e, none, none, 0⟩ :: rowsOf (depth + 1) false items
  | .call f e slots =>
    ⟨depth, .function, e, some f.literal, some (suppliedArguments slots), slots.length⟩ ::
      slotRows (depth + 1) slots

/-- The rows of a slot. -/
def Slot.rows (depth : Nat) : Slot → List Row
  | .mk e items => ⟨depth, .argument, e, none, none, 0⟩ :: rowsOf (depth + 1) false items

/-- The rows of a sibling list, where `hasLeft` says whether a value stands before it. -/
def rowsOf (depth : Nat) (hasLeft : Bool) : List Part → List Row
  | [] => []
  | p :: ps =>
    p.rows depth (operandCount hasLeft (!ps.isEmpty)) ++ rowsOf depth (!p.isOperator) ps

/-- The rows of slots and of the commas between them. -/
def slotRows (depth : Nat) : List Slot → List Row
  | [] => []
  | s :: ss =>
    s.rows depth ++
      (if ss.isEmpty then [] else [⟨depth, .separator, ⟨s.excerpt.stop, [',']⟩, none, none, 0⟩]) ++
        slotRows depth ss

end

/-- The printed row, indented by two blanks for each level. -/
def Row.text (row : Row) : Text :=
  let count := match row.supplied? with
    | some n => " [".toList ++ .ofNat n ++ " arg(s)]".toList
    | none => []
  List.replicate (2 * row.depth) ' ' ++ row.kind.name ++ " `".toList ++ row.written.text ++
    "` @".toList ++ .ofNat row.written.start ++ count

/-- The printed outline of a part. -/
def Part.outline (p : Part) : Text :=
  (p.rows 0 0).flatMap fun row => row.text.line

end Formula
