import Formula.Numeral.Shortest
import Formula.Symbol.Basic

/-!
# Expressions

An expression is a constant, a free variable or a call of an operation on expressions.  Operations
and variables are referred to by their index in the tables of a `CompiledFormula`, so that an
expression is evaluated without any look-up by name.

## Main definitions

* `Expr` — expressions.
* `CompiledFormula` — an expression with its tables.
* `Expr.eval`, `CompiledFormula.eval` — the value for given values of the variables.
* `Expr.text`, `CompiledFormula.display` — an expression written as nested calls.
-/

namespace Formula

/-- An expression. -/
inductive Expr
  /-- A constant. -/
  | const (value : Float)
  /-- The free variable with an index. -/
  | var (index : Nat)
  /-- The operation with an index, applied to arguments. -/
  | call (index : Nat) (args : List Expr)

/-- What a formula has been compiled to. -/
structure CompiledFormula where
  /-- The expression. -/
  root : Expr
  /-- The operations that the expression refers to. -/
  operations : List Operation
  /-- The free variables that the expression refers to. -/
  names : List Text

mutual

/-- The value of an expression for the values of the variables.  An index without an entry would
stand for a value that is not a number. -/
def Expr.eval (operations : List Operation) (values : List Float) : Expr → Float
  | .const value => value
  | .var i => values[i]?.getD Binary64.notANumber
  | .call i args =>
    match operations[i]? with
    | some f => f.native.apply (Expr.evalAll operations values args)
    | none => Binary64.notANumber

/-- The values of several expressions. -/
def Expr.evalAll (operations : List Operation) (values : List Float) : List Expr → List Float
  | [] => []
  | e :: es => e.eval operations values :: Expr.evalAll operations values es

end

@[simp] theorem Expr.evalAll_eq_map (operations : List Operation) (values : List Float)
    (es : List Expr) : Expr.evalAll operations values es = es.map (Expr.eval operations values) := by
  induction es with
  | nil => rfl
  | cons e es ih => rw [Expr.evalAll, ih, List.map_cons]

/-- The value of a compiled formula for the values of its variables. -/
def CompiledFormula.eval (f : CompiledFormula) (values : List Float) : Float :=
  f.root.eval f.operations values

mutual

/-- An expression as nested calls, with the literals of operations and variables. -/
def Expr.text (operations names : List Text) : Expr → Text
  | .const value => Numeral.write value
  | .var i => names[i]?.getD []
  | .call i args =>
    operations[i]?.getD [] ++ '(' :: Text.joinWith ", ".toList (Expr.textAll operations names args)
      ++ [')']

/-- The texts of several expressions. -/
def Expr.textAll (operations names : List Text) : List Expr → List Text
  | [] => []
  | e :: es => e.text operations names :: Expr.textAll operations names es

end

/-- A compiled formula as nested calls. -/
def CompiledFormula.display (f : CompiledFormula) : Text :=
  f.root.text (f.operations.map (·.literal)) f.names

end Formula
