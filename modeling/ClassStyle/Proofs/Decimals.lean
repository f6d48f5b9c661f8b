import ClassStyle.Proofs.NearestDecimals

/-!
# Values of printed numbers

A printed number has the value of the decimal that was chosen for it (`plainValue`), which is not
larger than the next number of its format (`exists_isPlain_writeSingle`). Read again in double
precision it stays within the same bound (`exists_readFloat?_source`).
-/

namespace ClassStyle

open Float.Model hiding pack unpack add sub mul div neg
open UnpackedFloat
open Text

/-! ## Decimals -/

section

variable {m k j : Nat}

theorem atMost_ofScientific (h : (m : ℚ) / 10 ^ k ≤ 2 ^ j) (hj : j < 1024) :
    AtMost j (Float.ofScientific m (decide (-(k : Int) < 0)) (-(k : Int)).natAbs) := by
  obtain ⟨u, hnearest, hunpack⟩ := exists_nearest_double m k
  exact atMost_of_rounded hnearest.rounded h hj hunpack

theorem atMost_toFloat (h : (m : ℚ) / 10 ^ k ≤ 2 ^ j) (hj : j < 1024) (negative : Bool) :
    AtMost j (Decimal.finite negative m (-k)).toFloat := by
  have hmagnitude := atMost_ofScientific h hj
  cases negative with
  | false => exact hmagnitude
  | true => exact hmagnitude.neg hj

end

/-! ## Values of numerals -/

/-- What a numeral without an exponent stands for, without its sign. -/
def Numeral.plainValue (n : Numeral) : ℚ :=
  decimalValue (n.whole ++ n.fractionDigits) / 10 ^ n.fractionDigits.length

theorem Decimal.ofNumeral_plain {n : Numeral} (h : n.IsPlain) :
    Decimal.ofNumeral n = .finite (Sign.isMinus n.sign)
      (decimalValue (n.whole ++ n.fractionDigits)) (-n.fractionDigits.length) := by
  simp [Decimal.ofNumeral, h.no_exponent]

theorem Decimal.ofText?_plain {n : Numeral} (h : n.IsPlain) :
    Decimal.ofText? n.source = some (Decimal.ofNumeral n) :=
  Decimal.ofText?_source (Numeral.scan_source h true)

theorem exists_readFloat?_source {n : Numeral} (h : n.IsPlain) {j : Nat}
    (hvalue : n.plainValue ≤ 2 ^ j) (hj : j < 1024) :
    ∃ x, readFloat? n.source = some x ∧ AtMost j x := by
  refine ⟨(Decimal.ofNumeral n).toFloat, ?_, ?_⟩
  · rw [readFloat?, Decimal.ofText?_plain h, Option.map_some]
  · rw [Decimal.ofNumeral_plain h]
    exact atMost_toFloat hvalue hj _

theorem zpow_eq_div {b : ℚ} (hb : b ≠ 0) (n : Int) : b ^ n = b ^ n.toNat / b ^ (-n).toNat := by
  have hn : n = (n.toNat : Int) - ((-n).toNat : Int) := by omega
  conv_lhs => rw [hn]
  rw [zpow_sub₀ hb, zpow_natCast, zpow_natCast]

theorem exists_isPlain_decimal (sign : UnpackedFloat.Sign) (c : Nat) (g : Int) :
    ∃ n : Numeral, n.IsPlain ∧ signed sign (plainDecimal c g) = n.source ∧
      n.sign = writtenSign sign ∧ n.plainValue = c * 10 ^ g := by
  obtain ⟨whole, fraction, hplain, htext, k, hk, hvalue⟩ := plainDecimal_eq_source c g
  obtain ⟨n, hn, hsource, hsign, hwhole, hfraction⟩ := exists_isPlain_signed sign hplain
  refine ⟨n, hn, by rw [htext, hsource], hsign, ?_⟩
  have hcast : (decimalValue (whole ++ fraction.getD []) : ℚ) * 10 ^ k = c * 10 ^ g.toNat := by
    exact_mod_cast hvalue
  unfold Numeral.plainValue Numeral.fractionDigits
  rw [hwhole, hfraction, zpow_eq_div (by norm_num), ← hk, pow_add, ← mul_div_assoc, ← hcast]
  field_simp

/-! ## The shortest decimal -/

namespace Shortest

variable {x : Dyadic} {y : ℚ} {g : Int} {c : Nat}

/-- How far the interval of a number goes down, in units of its last bit. -/
def Dyadic.gapBelow (x : Dyadic) : ℚ := if x.halfBelow then 1 / 4 else 1 / 2

/-- The interval of the numbers that are nearest to `x`. -/
structure Dyadic.Holds (x : Dyadic) (y : ℚ) : Prop where
  lower : x.m - x.gapBelow ≤ y / 2 ^ x.e
  upper : y / 2 ^ x.e ≤ x.m + 1 / 2
  odd : x.m % 2 = 1 → x.m - x.gapBelow < y / 2 ^ x.e ∧ y / 2 ^ x.e < x.m + 1 / 2

theorem window_scaled (x : Dyadic) (g : Int) (c : Nat) : ∃ unit : ℚ, 0 < unit ∧
    ((x.window g).centre : ℚ) = x.m * unit ∧ ((x.window g).below : ℚ) = x.gapBelow * unit ∧
    ((x.window g).above : ℚ) = 1 / 2 * unit ∧
    (c : ℚ) * (x.window g).step = c * 10 ^ g / 2 ^ x.e * unit := by
  refine ⟨4 * (2 ^ x.e.toNat * 10 ^ (-g).toNat), by positivity, ?_, ?_, ?_, ?_⟩
  · simp only [Dyadic.window]
    push_cast
    ring
  · simp only [Dyadic.window, Dyadic.gapBelow]
    split
    all_goals
      push_cast
      ring
  · simp only [Dyadic.window]
    push_cast
    ring
  · simp only [Dyadic.window]
    rw [zpow_eq_div (by norm_num), zpow_eq_div (b := 2) (by norm_num)]
    push_cast
    field_simp

theorem holds_of_contains (h : (x.window g).contains c = true) : x.Holds (c * 10 ^ g) := by
  obtain ⟨unit, hpos, hcentre, hbelow, habove, hpoint⟩ := window_scaled x g c
  have hclosed : (x.window g).closed = (x.m % 2 == 0) := rfl
  unfold Window.contains at h
  simp only [hclosed] at h
  split at h
  · next heven =>
    -- The significand is even, and the ends count as well.
    simp only [Bool.and_eq_true, decide_eq_true_eq] at h
    have hlow : ((x.window g).centre : ℚ) ≤ c * (x.window g).step + (x.window g).below := by
      exact_mod_cast h.1
    have hhigh : (c : ℚ) * (x.window g).step ≤ (x.window g).centre + (x.window g).above := by
      exact_mod_cast h.2
    rw [hcentre, hpoint, hbelow, ← add_mul, mul_le_mul_iff_left₀ hpos] at hlow
    rw [hcentre, hpoint, habove, ← add_mul, mul_le_mul_iff_left₀ hpos] at hhigh
    refine ⟨by linarith, hhigh, fun hodd => ?_⟩
    rw [hodd] at heven
    cases heven
  · simp only [Bool.and_eq_true, decide_eq_true_eq] at h
    have hlow : ((x.window g).centre : ℚ) < c * (x.window g).step + (x.window g).below := by
      exact_mod_cast h.1
    have hhigh : (c : ℚ) * (x.window g).step < (x.window g).centre + (x.window g).above := by
      exact_mod_cast h.2
    rw [hcentre, hpoint, hbelow, ← add_mul, mul_lt_mul_iff_left₀ hpos] at hlow
    rw [hcentre, hpoint, habove, ← add_mul, mul_lt_mul_iff_left₀ hpos] at hhigh
    exact ⟨by linarith, hhigh.le, fun _ => ⟨by linarith, hhigh⟩⟩

theorem holds_self (x : Dyadic) : x.Holds (x.m * 2 ^ x.e) := by
  have hgap : 0 < x.gapBelow := by
    unfold Dyadic.gapBelow
    split <;> norm_num
  have hvalue : (x.m : ℚ) * 2 ^ x.e / 2 ^ x.e = x.m := mul_div_cancel_right₀ _ (by positivity)
  refine ⟨?_, ?_, fun _ => ⟨?_, ?_⟩⟩
  all_goals
    rw [hvalue]
    linarith

theorem holds_shortest (x : Dyadic) : x.Holds (x.shortest.1 * 10 ^ x.shortest.2) := by
  unfold Dyadic.shortest
  simp only
  cases hfound : (List.range 17).findSome? fun (n : Nat) =>
      (x.window (x.magnitude - (n + 1))).nearest?.map (·, x.magnitude - ((n : Int) + 1)) with
  | some decimal =>
    obtain ⟨n, -, hn⟩ := List.exists_of_findSome?_eq_some hfound
    obtain ⟨c, hc, rfl⟩ := Option.map_eq_some_iff.mp hn
    exact holds_of_contains (contains_of_nearest? hc)
  | none =>
    have hvalue : ((x.m * 2 ^ x.e.toNat * 5 ^ (-x.e).toNat : Nat) : ℚ) * 10 ^ min x.e 0 =
        x.m * 2 ^ x.e := by
      have hmin : (min x.e 0).toNat = 0 ∧ (-min x.e 0).toNat = (-x.e).toNat := by omega
      have hten : (10 : ℚ) ^ (-x.e).toNat = 2 ^ (-x.e).toNat * 5 ^ (-x.e).toNat := by
        rw [← mul_pow]
        norm_num
      rw [zpow_eq_div (by norm_num), zpow_eq_div (b := 2) (by norm_num), hmin.1, hmin.2, hten]
      push_cast
      field_simp
    rw [Option.getD_none, hvalue]
    exact holds_self x

theorem shortest_le (x : Dyadic) :
    (x.shortest.1 : ℚ) * 10 ^ x.shortest.2 ≤ (x.m + 1) * 2 ^ x.e := by
  rw [← div_le_iff₀ (by positivity)]
  linarith [(holds_shortest x).upper]

end Shortest

/-! ## Printed numbers -/

theorem exists_isPlain_writeSingle {x : Float32} (h : x.toModel.unpack.isFinite = true) :
    ∃ n : Numeral, n.IsPlain ∧ writeSingle x = n.source ∧ n.plainValue ≤ 2 ^ 128 := by
  have hunpack : x.toModel.unpack = unpack .binary32 x.toModel.toBits.toBitVec := rfl
  unfold writeSingle
  generalize x.toModel.unpack = u at h hunpack
  cases u with
  | notANumber => cases h
  | infinity s => cases h
  | zero s =>
    obtain ⟨n, hn, htext, -, hvalue⟩ := exists_isPlain_decimal s 0 0
    refine ⟨n, hn, htext, ?_⟩
    rw [hvalue]
    norm_num
  | finite s m e hm =>
    obtain ⟨n, hn, htext, -, hvalue⟩ := exists_isPlain_decimal s
      (Shortest.Dyadic.ofFinite .binary32 m e).shortest.1
      (Shortest.Dyadic.ofFinite .binary32 m e).shortest.2
    refine ⟨n, hn, htext, ?_⟩
    rw [hvalue]
    exact (Shortest.shortest_le _).trans (succ_mul_le (by decide) hunpack.symm)

theorem exists_isPlain_limitInteger (i : Int) :
    ∃ n : Numeral, n.IsPlain ∧ Css.integerText (Css.limitInteger i) = n.source ∧
      n.plainValue ≤ 2 ^ 128 := by
  have hlimit : (Css.limitInteger i).natAbs ≤ 2 ^ 31 := by
    unfold Css.limitInteger
    omega
  generalize Css.limitInteger i = k at hlimit ⊢
  obtain ⟨n, hn, htext, -, hvalue⟩ := exists_isPlain_decimal
    (if k < 0 then .negative else .positive) k.natAbs 0
  refine ⟨n, hn, ?_, ?_⟩
  · rw [← htext]
    have hdigits : plainDecimal k.natAbs 0 = Nat.toDigits 10 k.natAbs := by
      simp [plainDecimal]
    unfold Css.integerText
    rw [hdigits]
    split <;> rfl
  · rw [hvalue, zpow_zero, mul_one]
    have hrat : (k.natAbs : ℚ) ≤ 2 ^ 31 := by exact_mod_cast hlimit
    exact hrat.trans (by norm_num)

end ClassStyle
