import ClassStyle.Number.Shortest

/-!
# Numbers as text

A number is written with the fewest digits that identify it in its own precision, positionally at
any size: never with an exponent, without a fraction if it is an integer, and with the sign of a
zero. What is no finite number is written `NaN`, `inf` or `-inf`.
-/

namespace ClassStyle

open Float.Model

/-- The text of `digits * 10 ^ exponent` without an exponent and without idle zeros at its end. -/
def plainDecimal (digits : Nat) (exponent : Int) : List Char :=
  let shown := Nat.toDigits 10 digits
  if 0 ≤ exponent then shown ++ List.replicate exponent.toNat '0'
  else
    let places := exponent.natAbs
    let padded := List.replicate (places + 1 - shown.length) '0' ++ shown
    let whole := padded.take (padded.length - places)
    let fraction := ((padded.drop (padded.length - places)).reverse.dropWhile (· == '0')).reverse
    if fraction = [] then whole else whole ++ '.' :: fraction

def signed (sign : UnpackedFloat.Sign) (text : List Char) : List Char :=
  match sign with
  | .negative => '-' :: text
  | .positive => text

/-- The text of a number of the given width. -/
def writeNumber (format : Format) : UnpackedFloat → List Char
  | .notANumber => ['N', 'a', 'N']
  | .infinity sign => signed sign ['i', 'n', 'f']
  | .zero sign => signed sign ['0']
  | .finite sign m e _ =>
    let (digits, exponent) := (Shortest.Dyadic.ofFinite format m e).shortest
    signed sign (plainDecimal digits exponent)

/-- The text of a number in double precision. -/
def writeFloat (x : Float) : List Char := writeNumber .binary64 x.toModel.unpack

/-- The text of a number in single precision. -/
def writeSingle (x : Float32) : List Char := writeNumber .binary32 x.toModel.unpack

/-- The text of a number in double precision, as a string. -/
def floatText (x : Float) : String := String.ofList (writeFloat x)

end ClassStyle
