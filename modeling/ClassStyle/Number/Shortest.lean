/-!
# The shortest decimal that reads back

The real numbers that round to a floating-point number form an interval around it, from halfway
to the neighbour below to halfway to the neighbour above, with its ends exactly when the
significand is even. Of the decimals in the interval the one with the fewest digits is chosen, of
those the nearest, and of two equally near ones the larger.
-/

namespace ClassStyle.Shortest

open Float.Model

-- Powers are those of the core library, also where an algebra library is in scope.
attribute [local instance (high)] instPowNat

/-- The positive number `m * 2 ^ e`. The gap to the neighbour below may be half the gap above. -/
structure Dyadic where
  m : Nat
  e : Int
  halfBelow : Bool

def Dyadic.ofFinite (format : Format) (m : Nat) (e : Int) : Dyadic where
  m
  e
  halfBelow := m == 2 ^ format.mantissaBitsWithoutImplicit && format.minExponent < e

/-- A number and its interval on the grid of the multiples of `10 ^ g`, all in one integer unit. -/
structure Window where
  centre : Nat
  below : Nat
  above : Nat
  /-- The distance between two points of the grid. -/
  step : Nat
  closed : Bool

def Dyadic.window (x : Dyadic) (g : Int) : Window :=
  let scale := 2 ^ x.e.toNat * 10 ^ (-g).toNat
  { centre := 4 * x.m * scale
    below := if x.halfBelow then scale else 2 * scale
    above := 2 * scale
    step := 4 * 10 ^ g.toNat * 2 ^ (-x.e).toNat
    closed := x.m % 2 == 0 }

/-- The point `c` of the grid lies in the interval. -/
def Window.contains (w : Window) (c : Nat) : Bool :=
  let point := c * w.step
  if w.closed then w.centre ≤ point + w.below && point ≤ w.centre + w.above
  else w.centre < point + w.below && point < w.centre + w.above

/-- The point of the grid in the interval that is nearest to the number. -/
def Window.nearest? (w : Window) : Option Nat :=
  let c := w.centre / w.step
  match w.contains c, w.contains (c + 1) with
  | true, true => if 2 * w.centre < (2 * c + 1) * w.step then some c else some (c + 1)
  | true, false => some c
  | false, true => some (c + 1)
  | false, false => none

/-- The number is less than `10 ^ k`. -/
def Dyadic.isBelow (x : Dyadic) (k : Int) : Bool :=
  x.m * 2 ^ x.e.toNat * 10 ^ (-k).toNat < 10 ^ k.toNat * 2 ^ (-x.e).toNat

/-- The least `k` with the number below `10 ^ k`, found near the logarithm. -/
def Dyadic.magnitude (x : Dyadic) : Int :=
  let estimate := (x.m.log2 + x.e) * 30103 / 100000
  if x.isBelow estimate then estimate
  else if x.isBelow (estimate + 1) then estimate + 1
  else if x.isBelow (estimate + 2) then estimate + 2
  else estimate + 3

/-- The shortest decimal `c * 10 ^ g` that reads back, tried with 1 to 17 digits; else the number
itself, which is a decimal too. -/
def Dyadic.shortest (x : Dyadic) : Nat × Int :=
  let k := x.magnitude
  let found := (List.range 17).findSome? fun (n : Nat) =>
    let g := k - (n + 1)
    (x.window g).nearest?.map (·, g)
  found.getD (x.m * 2 ^ x.e.toNat * 5 ^ (-x.e).toNat, min x.e 0)

end ClassStyle.Shortest
