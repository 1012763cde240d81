import Formula.Registry.Basic

/-!
# The standard symbols

The symbols of everyday calculations: six operators, of which the signs `+` and `-` may also stand
in front of a value, nine functions, two constants and the free variables `x` and `y`.

A sign binds less tightly than a power and more tightly than a product, so `-x^2` is the negative
of a square.
-/

namespace Formula

/-- An operator that stands between two values. -/
def Operator.between (literal name : String) (native : Native) (precedence : Nat) : Operator :=
  ⟨⟨.declare literal.toList name.toList Declaration.infixOperands, native⟩, precedence, none⟩

/-- An operator that may also stand in front of a value. -/
def Operator.sign (literal name : String) (native : Native) (precedence alone : Nat) : Operator :=
  ⟨⟨.declare literal.toList name.toList Declaration.signOperands, native⟩, precedence, some alone⟩

/-- A function of the given declarations. -/
def Symbol.named (literal name : String) (native : Native) (ds : List Declaration) : Symbol :=
  .function ⟨.declare literal.toList name.toList ds, native⟩

/-- The operators. -/
def standardOperators : List Operator :=
  [.sign "+" "Addition" .add 10 25,
   .sign "-" "Subtraction" .sub 10 25,
   .between "*" "Multiplication" .mul 20,
   .between "/" "Division" .div 20,
   .between "%" "Remainder" .rem 20,
   .between "^" "Exponentiation" .pow 30]

/-- The functions. -/
def standardFunctions : List Symbol :=
  [.named "abs" "Absolute Value" .abs Declaration.single,
   .named "sin" "Sine" (.unary Float.sin) Declaration.single,
   .named "cos" "Cosine" (.unary Float.cos) Declaration.single,
   .named "tan" "Tangent" (.unary Float.tan) Declaration.single,
   .named "sqrt" "Square Root" (.unary Float.sqrt) Declaration.single,
   .named "ln" "Natural Logarithm" (.unary Float.log) Declaration.single,
   .named "log" "Logarithm" .log [.required, .optional "10".toList],
   .named "min" "Min" .least Declaration.variadic,
   .named "max" "Max" .greatest Declaration.variadic]

/-- All standard symbols. -/
def standardSymbols : List Symbol :=
  standardOperators.map .operator ++ standardFunctions ++
    [.constant "e".toList "2.718281828459045".toList,
     .constant "pi".toList "3.141592653589793".toList,
     .free "x".toList,
     .free "y".toList]

/-- The registry of the standard symbols. -/
def Registry.standard : Registry :=
  match Registry.ofSymbols standardSymbols with
  | .ok r => r
  | .error _ => .empty

/-- The standard symbols can be registered. -/
theorem Registry.ofSymbols_standardSymbols :
    Registry.ofSymbols standardSymbols = .ok Registry.standard := by
  have h : (Registry.ofSymbols standardSymbols).isOk = true := by decide +kernel
  rw [Registry.standard]
  revert h
  cases Registry.ofSymbols standardSymbols with
  | ok r => intro _; rfl
  | error e => intro h; cases h

end Formula
