import Formula.Text
import Formula.Binary64

/-!
# The shortest decimal of a float

A float stands for an interval of reals, those that round to it.  Among the grids of multiples of a
power of ten, the coarsest one with a point in the interval gives the decimal with the fewest
digits that reads back; of several points on that grid the nearest to the float is taken, and the
upper one of two that are equally near.

A decimal is written positionally, without an exponent and without a point on a whole number.

## Main definitions

* `Decimal` — a natural number times a power of ten.
* `Dyadic.shortest` — the shortest decimal in the rounding interval.
* `Decimal.positional` — the digits of a decimal with a point where it belongs.
* `Numeral.write` — the text of a float.
-/

namespace Formula

/-- The number `coefficient · 10 ^ exponent`. -/
structure Decimal where
  /-- The integer factor. -/
  coefficient : Nat
  /-- The power of ten. -/
  exponent : Int
  deriving DecidableEq, Repr

/-- Three integers over one unit: a value, the ends of the interval that rounds to it, and whether
the ends belong to it. -/
structure Interval where
  /-- The lower end. -/
  low : Nat
  /-- The value itself. -/
  value : Nat
  /-- The upper end. -/
  high : Nat
  /-- Whether the ends round to the value, too. -/
  closed : Bool
  deriving Repr

namespace Interval

/-- Whether an integer lies in the interval. -/
def holds (i : Interval) (n : Nat) : Bool :=
  if i.closed then i.low ≤ n && n ≤ i.high else i.low < n && n < i.high

/-- The multiple of `step` in the interval that is nearest to the value, as a factor of `step`.
Only the two neighbours of the value have to be looked at. -/
def nearestMultiple? (i : Interval) (step : Nat) : Option Nat :=
  let below := i.value / step
  let above := below + 1
  match i.holds (below * step), i.holds (above * step) with
  | true, true =>
    if i.value - below * step < above * step - i.value then some below else some above
  | true, false => some below
  | false, true => some above
  | false, false => none

end Interval

namespace Dyadic

/-- The interval of a magnitude and the decimal grid `10 ^ e`, over a common unit: four times the
value's own power of two, or of ten, is a whole number of units.

The lower half gap is half as wide when the coefficient is the least of its binade. -/
def intervalOver (d : Dyadic) (e : Int) : Interval × Nat :=
  let up := Nat.pow 2 d.exponent.toNat * Nat.pow 10 (-e).toNat
  let step := 4 * Nat.pow 10 e.toNat * Nat.pow 2 (-d.exponent).toNat
  let narrow := d.coefficient == Nat.pow 2 52 && -1074 < d.exponent
  let m := 4 * d.coefficient
  (⟨(if narrow then m - 1 else m - 2) * up, m * up, (m + 2) * up, d.coefficient % 2 == 0⟩, step)

/-- The point of the grid `10 ^ e` that is found for a magnitude. -/
def onGrid? (d : Dyadic) (e : Int) : Option Decimal :=
  let (i, step) := d.intervalOver e
  (i.nearestMultiple? step).map (⟨·, e⟩)

/-- The decimal with all digits of a magnitude, since `2 ^ (-k) = 5 ^ k · 10 ^ (-k)`. -/
def exact (d : Dyadic) : Decimal :=
  if d.exponent < 0 then ⟨d.coefficient * Nat.pow 5 (-d.exponent).toNat, d.exponent⟩
  else ⟨d.coefficient * Nat.pow 2 d.exponent.toNat, 0⟩

/-- The shortest decimal of a positive magnitude.

The search starts at a power of ten above the value and goes down; seventeen digits always
suffice, so it ends within twenty grids. -/
def shortest (d : Dyadic) : Decimal :=
  let top : Int := ((Nat.log2 d.coefficient + 1 : Int) + d.exponent) * 30103 / 100000 + 1
  ((List.range 20).findSome? fun (k : Nat) => d.onGrid? (top - k)).getD d.exact

end Dyadic

/-- The digits of a decimal in positional form.  A decimal below one has a zero before the point. -/
def Decimal.positional (d : Decimal) : Text :=
  let digits := Text.ofNat d.coefficient
  if 0 ≤ d.exponent then digits ++ List.replicate d.exponent.toNat '0'
  else
    let places := (-d.exponent).toNat
    let padded := List.replicate (places + 1 - digits.length) '0' ++ digits
    padded.take (padded.length - places) ++ '.' :: padded.drop (padded.length - places)

/-- The text of a float: the shortest decimal that reads back as it, in positional form.  A zero
keeps its sign, and a value that is not a number has none. -/
def Numeral.write (x : Float) : Text :=
  if x.isNaN then "NaN".toList
  else
    let sign := if Binary64.isNegative x then ['-'] else []
    if x.isInf then sign ++ "inf".toList
    else if x == 0 then sign ++ ['0']
    else sign ++ (Binary64.magnitude x).shortest.positional

end Formula
