/-!
# Binary floating-point numbers, bit by bit

A finite `Float` is a sign and a magnitude `coefficient · 2 ^ exponent`.  The operations that have
to be exact, the remainder of a division and the search for a decimal text, work on these integers.

The smaller and the larger of two numbers skip a value that is not a number, so a fold over
several numbers is a number as soon as one of them is.

## Main definitions

* `Dyadic` — a natural number times a power of two.
* `Binary64.magnitude` — the magnitude of a finite float.
* `Binary64.remainder` — the remainder of the division that truncates toward zero.
* `Binary64.lesser`, `Binary64.greater` — minimum and maximum of the two numbers given.
-/

namespace Formula

/-- The number `coefficient · 2 ^ exponent`. -/
structure Dyadic where
  /-- The integer factor. -/
  coefficient : Nat
  /-- The power of two. -/
  exponent : Int
  deriving DecidableEq, Repr

namespace Binary64

/-- The value that is not a number. -/
def notANumber : Float :=
  Float.ofBits 0x7FF8000000000000

/-- Positive infinity. -/
def infinity : Float :=
  Float.ofBits 0x7FF0000000000000

/-- Whether the sign bit is set, also for a zero. -/
def isNegative (x : Float) : Bool :=
  x.toBits.toNat / Nat.pow 2 63 == 1

/-- The magnitude of a finite float.  The 52 stored bits have the unit bit in front of them unless
the exponent field is zero, and the least exponent is `-1074`. -/
def magnitude (x : Float) : Dyadic :=
  let bits : Nat := x.toBits.toNat
  let fraction : Nat := bits % Nat.pow 2 52
  let field : Nat := bits / Nat.pow 2 52 % Nat.pow 2 11
  if field = 0 then ⟨fraction, -1074⟩ else ⟨Nat.pow 2 52 + fraction, (field : Int) - 1075⟩

/-- The remainder of `x` divided by `y`, exact and with the sign of `x`.

Both magnitudes are written over the smaller exponent of the two, where the remainder of the
integers is the remainder of the numbers; it is below `2 ^ 53`, so the float is exact. -/
def remainder (x y : Float) : Float :=
  if !x.isFinite || y.isNaN || y == 0 then notANumber
  else if !y.isFinite then x
  else
    let a := magnitude x
    let b := magnitude y
    let e := min a.exponent b.exponent
    let r := (a.coefficient * Nat.pow 2 (a.exponent - e).toNat) %
      (b.coefficient * Nat.pow 2 (b.exponent - e).toNat)
    let z := (Float.ofNat r).scaleB e
    if isNegative x then -z else z

/-- The smaller of two numbers; of a number and a value that is none, the number. -/
def lesser (x y : Float) : Float :=
  if x.isNaN then y else if y < x then y else x

/-- The larger of two numbers; of a number and a value that is none, the number. -/
def greater (x y : Float) : Float :=
  if x.isNaN then y else if x < y then y else x

end Binary64

end Formula
