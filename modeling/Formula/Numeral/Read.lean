import Formula.Text
import Formula.Binary64

/-!
# Numbers written in decimal

A *plain* numeral is what a formula may contain: digits with an optional point and optional digits
after it, or a point and digits.  A `Numeral` is the wider notation of constants, default values
and variable values: an optional sign, then a plain numeral with an optional exponent, or the name
of an infinity or of the value that is not a number.

Reading rounds to the nearest float, so a numeral too large for a float is infinite and one too
small is zero.

## Main definitions

* `Numeral.isPlain` — the numerals of formulas.
* `Numeral`, `Numeral.ofText?` — a number as written, and its recognition.
* `Numeral.value` — the nearest float.
* `Numeral.read` — the float that a text stands for, or why there is none.
-/

namespace Formula

/-- A number as it is written in decimal. -/
inductive Numeral
  /-- The number `± coefficient · 10 ^ exponent`. -/
  | finite (negative : Bool) (coefficient : Nat) (exponent : Int)
  /-- An infinity. -/
  | infinite (negative : Bool)
  /-- The value that is not a number. -/
  | notANumber
  deriving DecidableEq, Repr

namespace Numeral

/-- Whether a text consists of digits. -/
def allDigits (t : Text) : Bool :=
  t.all Char.isDigit

/-- The natural number with the given decimal digits. -/
def digitsValue (t : Text) : Nat :=
  t.foldl (fun n c => 10 * n + (c.toNat - '0'.toNat)) 0

/-- Whether a text is a plain numeral: digits with an optional point and optional digits (`12`,
`1.5`, `5.`), or a point and digits (`.5`). -/
def isPlain (t : Text) : Bool :=
  match t.span Char.isDigit with
  | ([], '.' :: fraction) => fraction ≠ [] && allDigits fraction
  | ([], _) => false
  | (_, []) => true
  | (_, '.' :: fraction) => allDigits fraction
  | (_, _) => false

/-- The sign in front of a text, and the text after it. -/
def takeSign : Text → Bool × Text
  | '-' :: t => (true, t)
  | '+' :: t => (false, t)
  | t => (false, t)

/-- The exponent of a text that is one: an optional sign and at least one digit. -/
def exponent? (t : Text) : Option Int :=
  let (negative, digits) := takeSign t
  if digits ≠ [] && allDigits digits then
    let n : Int := digitsValue digits
    some (if negative then -n else n)
  else none

/-- Whether a character stands between a mantissa and its exponent: `e` or `E`. -/
def isExponentMark (c : Char) : Bool :=
  c = 'e' || c = 'E'

/-- The mantissa and the exponent of an unsigned number: everything before the first exponent mark
is a plain numeral, and what follows it is the exponent. -/
def unsigned? (t : Text) : Option (Nat × Int) :=
  let mantissa := t.takeWhile (!isExponentMark ·)
  let scale? := match t.dropWhile (!isExponentMark ·) with
    | [] => some 0
    | _ :: e => exponent? e
  if isPlain mantissa then
    let whole := mantissa.takeWhile Char.isDigit
    let fraction := (mantissa.dropWhile Char.isDigit).drop 1
    scale?.map fun e => (digitsValue (whole ++ fraction), e - fraction.length)
  else none

/-- The number that a text writes, if it writes one. -/
def ofText? (t : Text) : Option Numeral :=
  let (negative, body) := takeSign t
  let name := Text.lower body
  if name = "inf".toList || name = "infinity".toList then some (.infinite negative)
  else if name = "nan".toList then some .notANumber
  else (unsigned? body).map fun (n, e) => .finite negative n e

/-- The nearest float.  A float lies between `10 ^ (-324)` and `10 ^ 309`, so a number whose leading
digit is far outside is decided by its magnitude alone, whatever its exponent. -/
def value : Numeral → Float
  | .notANumber => Binary64.notANumber
  | .infinite negative => if negative then -Binary64.infinity else Binary64.infinity
  | .finite negative n e =>
    let order : Int := (Text.ofNat n).length + e
    let x :=
      if n = 0 || order < -330 then 0
      else if 310 < order then Binary64.infinity
      else if 0 ≤ e then Float.ofScientific n false e.toNat
      else Float.ofScientific n true (-e).toNat
    if negative then -x else x

/-- Why a text is not a number. -/
inductive ReadError
  /-- There is no text. -/
  | empty
  /-- The text writes no number. -/
  | invalid
  deriving DecidableEq, Repr

/-- The wording of a failed reading. -/
def ReadError.message : ReadError → Text
  | .empty => "cannot parse float from empty string".toList
  | .invalid => "invalid float literal".toList

/-- The float that a text stands for. -/
def read (t : Text) : Except ReadError Float :=
  if t = [] then .error .empty
  else match ofText? t with
    | none => .error .invalid
    | some n => .ok n.value

end Numeral

end Formula
