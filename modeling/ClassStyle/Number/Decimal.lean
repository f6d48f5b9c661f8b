import ClassStyle.Number.Numeral

/-!
# Decimals

A decimal is a signed number `m * 10 ^ e`, an infinity or no number at all. It is read from a
whole text, and it denotes the nearest floating-point number of either width (of two equally near
ones the even one).
-/

namespace ClassStyle

open Text

inductive Decimal where
  | nan
  | infinite (negative : Bool)
  | finite (negative : Bool) (significand : Nat) (exponent : Int)
  deriving DecidableEq, Inhabited

namespace Decimal

def ofNumeral (n : Numeral) : Decimal :=
  .finite (Sign.isMinus n.sign) (decimalValue (n.whole ++ n.fractionDigits))
    ((n.exponent.map Exponent.value).getD 0 - n.fractionDigits.length)

/-- The words for what has no digits, in any case: `inf`, `infinity` and `nan`, perhaps signed. -/
def ofWord? (s : List Char) : Option Decimal :=
  let (sign, word) := Sign.scan s
  let word := lower word
  if word = ['i', 'n', 'f'] ∨ word = ['i', 'n', 'f', 'i', 'n', 'i', 't', 'y'] then
    some (.infinite (Sign.isMinus sign))
  else if word = ['n', 'a', 'n'] then some .nan
  else none

/-- Reads a text that is one numeral (digits may end in a dot) or one word, and nothing else. -/
def ofText? (s : List Char) : Option Decimal :=
  match Numeral.scan true s with
  | some (n, []) => some (ofNumeral n)
  | some _ => none
  | none => ofWord? s

theorem ofText?_source {s : List Char} {n : Numeral} (h : Numeral.scan true s = some (n, [])) :
    ofText? s = some (ofNumeral n) := by
  simp [ofText?, h]

/-! ## The floating-point numbers denoted -/

def toFloat : Decimal → Float
  | nan => 0.0 / 0.0
  | infinite negative => if negative then -1.0 / 0.0 else 1.0 / 0.0
  | finite negative m e =>
    let magnitude := Float.ofScientific m (decide (e < 0)) e.natAbs
    if negative then -magnitude else magnitude

def toSingle : Decimal → Float32
  | nan => 0.0 / 0.0
  | infinite negative => if negative then -1.0 / 0.0 else 1.0 / 0.0
  | finite negative m e =>
    let magnitude := Float32.ofScientific m (decide (e < 0)) e.natAbs
    if negative then -magnitude else magnitude

end Decimal

/-- The number that a text denotes, in double precision. -/
def readFloat? (s : List Char) : Option Float := (Decimal.ofText? s).map Decimal.toFloat

/-- The number that a text denotes, in single precision. -/
def readSingle? (s : List Char) : Option Float32 := (Decimal.ofText? s).map Decimal.toSingle

end ClassStyle
