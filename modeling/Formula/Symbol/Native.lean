import Formula.Binary64

/-!
# Native operations on floats

A native operation computes a float from a list of floats.  One of fixed arity reads its arguments
from the front of the list: a missing argument is not a number, and what follows the last one is
ignored.  A variadic operation sees the whole list.
-/

namespace Formula

/-- An operation on floats. -/
structure Native where
  /-- The number of arguments, if it is fixed. -/
  arity : Option Nat
  /-- The value for a list of arguments. -/
  apply : List Float → Float

namespace Native

/-- The argument at an index; a missing one is not a number. -/
def argument (args : List Float) (i : Nat) : Float :=
  args[i]?.getD Binary64.notANumber

/-- An operation on one number. -/
def unary (f : Float → Float) : Native :=
  ⟨some 1, fun args => f (argument args 0)⟩

/-- An operation on two numbers. -/
def binary (f : Float → Float → Float) : Native :=
  ⟨some 2, fun args => f (argument args 0) (argument args 1)⟩

/-- An operation on three numbers. -/
def ternary (f : Float → Float → Float → Float) : Native :=
  ⟨some 3, fun args => f (argument args 0) (argument args 1) (argument args 2)⟩

/-- An operation on any number of numbers. -/
def variadic (f : List Float → Float) : Native :=
  ⟨none, f⟩

/-- The sum of two numbers. -/
def add : Native := binary (· + ·)

/-- The difference of two numbers. -/
def sub : Native := binary (· - ·)

/-- The product of two numbers. -/
def mul : Native := binary (· * ·)

/-- The quotient of two numbers. -/
def div : Native := binary (· / ·)

/-- The remainder of the truncating division. -/
def rem : Native := binary Binary64.remainder

/-- A power. -/
def pow : Native := binary Float.pow

/-- The absolute value. -/
def abs : Native := unary Float.abs

/-- The logarithm of `x` to the base `b`, as a quotient of natural logarithms. -/
def log : Native := binary fun x b => x.log / b.log

/-- The values combined from the left; without values the result is not a number. -/
def foldValues (f : Float → Float → Float) : List Float → Float
  | [] => Binary64.notANumber
  | x :: xs => xs.foldl f x

/-- The smallest of the arguments that are numbers. -/
def least : Native := variadic (foldValues Binary64.lesser)

/-- The largest of the arguments that are numbers. -/
def greatest : Native := variadic (foldValues Binary64.greater)

/-- The sum of the arguments, from the left. -/
def sum : Native := variadic fun args => args.foldl (· + ·) 0

/-- The number of arguments. -/
def count : Native := variadic fun args => Float.ofNat args.length

/-- The last argument. -/
def last : Native := variadic fun args => args.getLast?.getD Binary64.notANumber

/-- A number moved into the interval from `low` to `high`. -/
def clamp : Native :=
  ternary fun x low high => Binary64.lesser (Binary64.greater x low) high

/-- The second argument if the first is positive, the third otherwise. -/
def select : Native := ternary fun x y z => if x > 0 then y else z

end Native

end Formula
