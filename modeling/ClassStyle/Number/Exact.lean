/-!
# Exact values of floating-point numbers

A finite floating-point number is `m * 2 ^ e`. Conversions between the widths and to integers are
computed on `m` and `e`, so that they can be reasoned about and evaluated in proofs.
-/

namespace ClassStyle

open Float.Model

-- Powers are those of the core library, also where an algebra library is in scope.
attribute [local instance (high)] instPowNat

/-- The nearest single-precision number (of two equally near ones the even one). -/
def narrow (x : Float) : Float32 :=
  .ofModel <| .pack <| match x.toModel.unpack with
    | .finite sign m e _ => UnpackedFloat.round .binary32 sign m e
    | other => other

/-- The floor of `m * 2 ^ e + 1 / 2`. -/
def roundScaled (m : Nat) (e : Int) : Nat :=
  if 0 ≤ e then m * 2 ^ e.toNat
  else (2 * m + 2 ^ e.natAbs) / 2 ^ (e.natAbs + 1)

/-- Rounds to an integer, halves away from zero, and limits it to 0 to 255. What is no number
counts as 0. -/
def nearestByte (x : Float) : UInt8 :=
  match x.toModel.unpack with
  | .finite .positive m e _ => .ofNat (min 255 (roundScaled m e))
  | .infinity .positive => 255
  | _ => 0

/-- The number as a natural number, if it is one. Both zeros are 0. -/
def natural? (x : Float) : Option Nat :=
  match x.toModel.unpack with
  | .zero _ => some 0
  | .finite .positive m e _ =>
    if 0 ≤ e then some (m * 2 ^ e.toNat)
    else if m % 2 ^ e.natAbs = 0 then some (m / 2 ^ e.natAbs)
    else none
  | _ => none

/-- Limits a number to a range. What is no number stays as it is. -/
def limit (low high x : Float) : Float :=
  if x < low then low else if high < x then high else x

end ClassStyle
