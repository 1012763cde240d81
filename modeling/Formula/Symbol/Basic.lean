import Formula.Numeral.Read
import Formula.Symbol.Native
import Formula.Symbol.Signature

/-!
# Symbols of a formula

A symbol is an operator between or in front of values, a function that is called with arguments in
parentheses, a constant, or a free variable.  Its *key* is its literal in lower case, since letter
case does not matter in a formula.

A symbol is *sound* if it can be used at all: its literal is not empty, a constant reads as a
number, and an operation declares as many parameters as its native operation takes, unless one of
them absorbs any number.

## Main definitions

* `Operation` — a signature and the native operation behind it.
* `Operator` — an operation with precedences.
* `Symbol` — operator, function, constant or free variable.
* `Symbol.key` — the literal in lower case.
* `Symbol.flaw?` — the first reason why a symbol cannot be used.
-/

namespace Formula

/-- An operation that a formula can apply. -/
structure Operation where
  /-- Literal, name and parameters. -/
  signature : Signature
  /-- What is computed. -/
  native : Native

/-- The literal of an operation. -/
def Operation.literal (f : Operation) : Text := f.signature.literal

/-- An operator, which is applied to a left and a right operand. -/
structure Operator where
  /-- The operation, whose first two parameters are the left and the right operand. -/
  operation : Operation
  /-- How tightly the operator binds between two values. -/
  precedence : Nat
  /-- How tightly it binds without a left operand, if that differs. -/
  signPrecedence? : Option Nat

namespace Operator

/-- The literal of an operator. -/
def literal (op : Operator) : Text := op.operation.literal

/-- How tightly the operator binds without a left operand. -/
def signPrecedence (op : Operator) : Nat := op.signPrecedence?.getD op.precedence

/-- The left operand. -/
def left? (op : Operator) : Option Parameter := op.operation.signature.parameter? 0

/-- The right operand. -/
def right? (op : Operator) : Option Parameter := op.operation.signature.parameter? 1

/-- Whether the left operand may be left out. -/
def leftOptional (op : Operator) : Bool := op.operation.signature.optionalAt 0

/-- Whether the right operand may be left out. -/
def rightOptional (op : Operator) : Bool := op.operation.signature.optionalAt 1

end Operator

/-- A symbol that a formula may contain. -/
inductive Symbol
  /-- An operator. -/
  | operator (op : Operator)
  /-- A function, called with arguments in parentheses. -/
  | function (f : Operation)
  /-- A constant and the text of its value. -/
  | constant (literal expression : Text)
  /-- A free variable. -/
  | free (literal : Text)

namespace Symbol

/-- The text that stands for a symbol. -/
def literal : Symbol → Text
  | operator op => op.literal
  | function f => f.literal
  | constant literal _ => literal
  | free literal => literal

/-- The literal in lower case, by which symbols are found. -/
def key (s : Symbol) : Text := s.literal.lower

/-- Whether a symbol is called with arguments in parentheses. -/
def isCallable : Symbol → Bool
  | function _ => true
  | _ => false

/-- The operation of an operator or a function. -/
def operation? : Symbol → Option Operation
  | operator op => some op.operation
  | function f => some f
  | _ => none

@[simp] theorem length_key (s : Symbol) : s.key.length = s.literal.length :=
  Text.length_lower _

end Symbol

/-- Why a symbol cannot be used. -/
inductive Symbol.Flaw
  /-- The literal is empty. -/
  | emptyLiteral
  /-- The text of a constant is not a number. -/
  | invalidConstant (literal expression : Text)
  /-- The number of parameters is not the number of arguments that the native operation takes. -/
  | arityMismatch (literal : Text) (declared native : Nat)
  deriving DecidableEq, Repr

/-- The value of a constant with the given text. -/
def constantValue (expression : Text) : Except Numeral.ReadError Float :=
  Numeral.read expression.trim

/-- The flaw of an operation without an absorbing parameter whose number of parameters differs from
its native arity. -/
def Operation.flaw? (f : Operation) : Option Symbol.Flaw :=
  match f.native.arity, f.signature.maximum? with
  | some native, some declared =>
    if declared = native then none else some (.arityMismatch f.literal declared native)
  | _, _ => none

/-- The first flaw of a symbol. -/
def Symbol.flaw? (s : Symbol) : Option Symbol.Flaw :=
  if s.literal = [] then some .emptyLiteral
  else match s with
    | .operator op => op.operation.flaw?
    | .function f => f.flaw?
    | .constant literal expression =>
      match constantValue expression with
      | .ok _ => none
      | .error _ => some (.invalidConstant literal expression)
    | .free _ => none

/-- A symbol without a flaw has a literal. -/
theorem Symbol.literal_ne_nil {s : Symbol} (h : s.flaw? = none) : s.literal ≠ [] := by
  intro hs
  simp [flaw?, hs] at h

end Formula
