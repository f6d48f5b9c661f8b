import ClassStyle.Number.Exact
import ClassStyle.Number.Plain
import ClassStyle.Number.Numeral
import ClassStyle.Number.Power

/-!
# The numbers of a stylesheet

A numeral of a stylesheet is evaluated digit by digit in double precision and then rounded to
single precision, in which its text is written.
-/

namespace ClassStyle.Css

open Text

def digitFloat (c : Char) : Float := Float.ofNat (digitValue c)

/-- The digits before the dot. -/
def wholeValue (digits : List Char) : Float :=
  digits.foldl (fun value c => value * 10 + digitFloat c) 0

/-- The digits behind the dot. Each weighs a tenth of the one before it, rounded at every step. -/
def fractionValue (digits : List Char) : Float :=
  (digits.foldl (fun (state : Float × Float) c =>
    (state.1 + digitFloat c * state.2, state.2 * 0.1)) (0, 0.1)).1

/-- The value of a numeral in double precision. -/
def doubleValue (n : Numeral) : Float :=
  let sign : Float := if Sign.isMinus n.sign then -1 else 1
  let value := sign * (wholeValue n.whole + fractionValue n.fractionDigits)
  match n.exponent with
  | none => value
  | some e => value * powerOfTen e.value

/-- The value of a numeral in single precision. -/
def singleValue (n : Numeral) : Float32 := narrow (doubleValue n)

/-- A percentage as a fraction of one. -/
def percentFraction (n : Numeral) : Float32 := narrow (doubleValue n / 100)

/-! ## Text -/

def integerText (i : Int) : List Char :=
  if i < 0 then '-' :: Nat.toDigits 10 i.natAbs else Nat.toDigits 10 i.natAbs

/-- Limits an integer to 32 bits. -/
def limitInteger (i : Int) : Int := max (-2147483648) (min 2147483647 i)

def numberText (n : Numeral) : List Char := writeSingle (singleValue n)

/-- The number of a percentage. Integers stay as they are, within 32 bits. -/
def percentText (n : Numeral) : List Char :=
  if n.isInteger then integerText (limitInteger n.integerValue)
  else writeSingle (percentFraction n * 100)

end ClassStyle.Css
