import ClassStyle.Number.Exact

/-!
# Powers of ten

A power of ten in double precision is the product of two factors: a power of `10 ^ 10` that is kept
to 62 significant bits, and the rest, which is an integer below `10 ^ 10`. The product is rounded to
the bits of a double, halves up. So the power is the nearest double, unless it lies so near to the
middle between two doubles that 62 bits cannot tell which of them is nearer.
-/

namespace ClassStyle

open Float.Model

-- Powers are those of the core library, also where an algebra library is in scope.
attribute [local instance (high)] instPowNat

/-- The integer nearest to `a / b`, halves up. -/
def nearestQuotient (a b : Nat) : Nat := (2 * a + b) / (2 * b)

/-- The power `10 ^ e` as a quotient of integers. -/
def tenQuotient (e : Int) : Nat × Nat := (10 ^ e.toNat, 10 ^ (-e).toNat)

/-- The significant bits to which the first factor is kept. -/
def powerBits : Nat := 62

/-- The exponent of the last of the significant bits of `a / b`. -/
def lastBitExponent (a b : Nat) : Int :=
  let e : Int := a.log2 - b.log2 + 1 - powerBits
  if a * 2 ^ (-e).toNat < 2 ^ (powerBits - 1) * (b * 2 ^ e.toNat) then e - 1 else e

/-- The power `10 ^ e` kept to its significant bits, as `m * 2 ^ last`. -/
def keptPower (e : Int) : Nat × Int :=
  let (a, b) := tenQuotient e
  let last := lastBitExponent a b
  (nearestQuotient (a * 2 ^ (-last).toNat) (b * 2 ^ last.toNat), last)

/-- The double nearest to `m * 2 ^ e`, halves up. -/
def roundHalfUp (m : Nat) (e : Int) : Float :=
  let unit := max (m.log2 + 1 + e - Format.binary64.mantissaBits) Format.binary64.minExponent
  .ofModel <| .pack <| UnpackedFloat.round .binary64 .positive (roundScaled m (e - unit)) unit

/-- The power `10 ^ e` in double precision. Exponents beyond 400 either way are limited to that
range, at whose ends the powers are infinite and zero. -/
def powerOfTen (e : Int) : Float :=
  let e := max (-400) (min 400 e)
  let rest := e % 10
  let (m, last) := keptPower (e - rest)
  roundHalfUp (m * 10 ^ rest.toNat) last

end ClassStyle
