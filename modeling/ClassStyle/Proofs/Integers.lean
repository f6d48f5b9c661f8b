import ClassStyle.Css.Number
import ClassStyle.Proofs.Magnitudes
import ClassStyle.Proofs.Printed

/-!
# Integers of a stylesheet

Integers below `2 ^ 24` are exact in single precision, and a stylesheet's reader writes them with
all their digits (`numberText_integer`).
-/

namespace ClassStyle

open Float.Model hiding pack unpack add mul div
open UnpackedFloat
open Text

/-! ## Digits in double precision -/

theorem unpack_ofNat {k : Nat} (hpos : 0 < k) (h : k ≤ 10) :
    ∃ hm, (Float.ofNat k).toModel.unpack =
      .finite .positive (k * 2 ^ (52 - k.log2)) (k.log2 - 52) hm := by
  interval_cases k
  all_goals exact ⟨by decide, rfl⟩

theorem denotes_ofNat {k : Nat} (h : k ≤ 10) :
    Denotes .binary64 .positive (Float.ofNat k).toModel.unpack k := by
  rcases Nat.eq_zero_or_pos k with rfl | hpos
  · rw [Nat.cast_zero]
    exact Denotes.zero
  · obtain ⟨hm, hunpack⟩ := unpack_ofNat hpos h
    have hbits : ∀ k < 11, 0 < k → k.log2 ≤ 52 ∧ k * 2 ^ (52 - k.log2) < 2 ^ 53 ∧
        2 ^ 52 ≤ k * 2 ^ (52 - k.log2) := by decide
    obtain ⟨hlog, hless, hfull⟩ := hbits k (by omega) hpos
    have hvalue : (k : ℚ) = ((k * 2 ^ (52 - k.log2) : Nat) : ℚ) * 2 ^ ((k.log2 : Int) - 52) := by
      have hsum : ((52 - k.log2 : Nat) : Int) + ((k.log2 : Int) - 52) = 0 := by omega
      push_cast
      rw [← zpow_natCast, mul_assoc, ← zpow_add₀ (by norm_num), hsum, zpow_zero, mul_one]
    rw [hunpack, hvalue]
    refine Denotes.finite hm hless ?_ (.inl hfull)
    show (-1074 : Int) ≤ _
    omega

/-! ## Exact operations -/

section

variable {F : Format} {s : UnpackedFloat.Sign} {u : UnpackedFloat} {x : ℚ}

theorem Rounded.unpack_pack_of_inFormat (h : Rounded F s x u) (hF : 2 ≤ F.exponentBits)
    (hx : InFormat F x) (hlt : x < 2 ^ 2 ^ (F.exponentBits - 1)) :
    Denotes F s (unpack F (pack F u)) x := by
  have hdenotes := h.denotes hx
  rcases unpack_pack hF hdenotes with hunpack | ⟨hlarge, -⟩
  · rwa [hunpack]
  · exact absurd hlarge (not_le.mpr hlt)

theorem inFormat_natCast {n : Nat} (h : n < 2 ^ F.mantissaBits) : InFormat F n :=
  ⟨n, 0, h, minExponent_nonpos F, by simp⟩

end

section

variable {a b : Float} {s t : UnpackedFloat.Sign} {m n : Nat}

theorem natCast_lt (h : n < 2 ^ 53) : (n : ℚ) < 2 ^ 2 ^ (Format.binary64.exponentBits - 1) := by
  calc (n : ℚ) < ((2 ^ 53 : Nat) : ℚ) := by exact_mod_cast h
    _ = 2 ^ 53 := by norm_num
    _ ≤ 2 ^ 2 ^ (Format.binary64.exponentBits - 1) := pow_le_pow_right₀ (by norm_num) (by decide)

theorem denotes_mul (ha : Denotes .binary64 s a.toModel.unpack m)
    (hb : Denotes .binary64 t b.toModel.unpack n) (h : m * n < 2 ^ 53) :
    Denotes .binary64 (s * t) (a * b).toModel.unpack (m * n : Nat) := by
  have hrounded := (nearest_mul ha hb).rounded
  rw [← Nat.cast_mul] at hrounded
  exact hrounded.unpack_pack_of_inFormat (by decide) (inFormat_natCast h) (natCast_lt h)

theorem denotes_add (ha : Denotes .binary64 .positive a.toModel.unpack m)
    (hb : Denotes .binary64 .positive b.toModel.unpack n) (h : m + n < 2 ^ 53) :
    Denotes .binary64 .positive (a + b).toModel.unpack (m + n : Nat) := by
  have hrounded := (nearest_add ha hb).rounded
  rw [← Nat.cast_add] at hrounded
  exact hrounded.unpack_pack_of_inFormat (by decide) (inFormat_natCast h) (natCast_lt h)

end

/-! ## Integers in both precisions -/

theorem digitValue_le {c : Char} (h : isDigit c = true) : digitValue c ≤ 9 := by
  have hrange := toNat_of_isDigit h
  unfold digitValue
  omega

theorem denotes_wholeValue {digits : List Char} (hdigits : ∀ c ∈ digits, isDigit c = true)
    (h : decimalValue digits < 2 ^ 53) :
    Denotes .binary64 .positive (Css.wholeValue digits).toModel.unpack (decimalValue digits) := by
  induction digits using List.reverseRecOn with
  | nil => exact denotes_ofNat (k := 0) (by decide)
  | append_singleton digits c ih =>
    obtain ⟨hbefore, hc⟩ := List.forall_mem_append.mp hdigits
    have hdigit := digitValue_le (hc c (by simp))
    have hten : Denotes .binary64 .positive (10 : Float).toModel.unpack (10 : Nat) :=
      denotes_ofNat (k := 10) (by decide)
    have hwhole : Css.wholeValue (digits ++ [c]) =
        Css.wholeValue digits * 10 + Float.ofNat (digitValue c) := by
      simp [Css.wholeValue, Css.digitFloat]
    rw [decimalValue_concat] at h ⊢
    have hshifted := denotes_mul (ih hbefore (by omega)) hten (by omega)
    rw [hwhole]
    exact denotes_add hshifted (denotes_ofNat (by omega)) h

/-- The sign of a numeral. -/
def Numeral.floatSign (n : Numeral) : UnpackedFloat.Sign :=
  if Sign.isMinus n.sign then .negative else .positive

section

variable {n : Numeral}

theorem denotes_doubleValue (hinteger : n.isInteger = true)
    (hdigits : ∀ c ∈ n.whole, isDigit c = true) (h : decimalValue n.whole < 2 ^ 53) :
    Denotes .binary64 n.floatSign (Css.doubleValue n).toModel.unpack (decimalValue n.whole) := by
  obtain ⟨sign, whole, fraction, exponent⟩ := n
  simp only [Numeral.isInteger, Bool.and_eq_true, Option.isNone_iff_eq_none] at hinteger
  obtain ⟨rfl, rfl⟩ := hinteger
  have hone : Denotes .binary64 (Numeral.floatSign ⟨sign, whole, none, none⟩)
      (if Sign.isMinus sign then -1 else 1 : Float).toModel.unpack (1 : Nat) := by
    have hvalue : ((1 : Nat) : ℚ) = ((2 ^ 52 : Nat) : ℚ) * 2 ^ (-52 : Int) := by norm_num
    unfold Numeral.floatSign
    rw [hvalue]
    cases Sign.isMinus sign <;>
      exact Denotes.finite (by decide) (by decide) (by decide) (.inl (by decide))
  have hzero : Denotes .binary64 .positive (Css.fractionValue []).toModel.unpack (0 : Nat) :=
    denotes_ofNat (k := 0) (by decide)
  have hsum := denotes_add (denotes_wholeValue hdigits h) hzero (by simpa using h)
  have hproduct := denotes_mul hone hsum (by simpa using h)
  have hsign : Numeral.floatSign ⟨sign, whole, none, none⟩ * .positive =
      Numeral.floatSign ⟨sign, whole, none, none⟩ := by
    cases Numeral.floatSign ⟨sign, whole, none, none⟩ <;> rfl
  rw [hsign, Nat.one_mul, Nat.add_zero] at hproduct
  exact hproduct

theorem denotes_singleValue (hinteger : n.isInteger = true)
    (hdigits : ∀ c ∈ n.whole, isDigit c = true) (h : decimalValue n.whole < 2 ^ 24) :
    Denotes .binary32 n.floatSign (Css.singleValue n).toModel.unpack (decimalValue n.whole) := by
  have hdouble := denotes_doubleValue hinteger hdigits (Nat.lt_trans h (by decide))
  have hlt : ((decimalValue n.whole : Nat) : ℚ) < 2 ^ 2 ^ (Format.binary32.exponentBits - 1) := by
    calc ((decimalValue n.whole : Nat) : ℚ) < ((2 ^ 24 : Nat) : ℚ) := by exact_mod_cast h
      _ = 2 ^ 24 := by norm_num
      _ ≤ 2 ^ 2 ^ (Format.binary32.exponentBits - 1) := pow_le_pow_right₀ (by norm_num) (by decide)
  exact (nearest_narrowed hdouble).rounded.unpack_pack_of_inFormat (by decide) (inFormat_natCast h)
    hlt

end

/-! ## The shortest text of an integer -/

namespace Shortest

-- Powers are those of the definitions, also where an algebra library is in scope.
attribute [local instance (high)] instPowNat

variable {x : Dyadic} {N : Nat}

/-- The number is the natural number `N`. -/
structure Dyadic.IsNatural (x : Dyadic) (N : Nat) : Prop where
  exponent : x.e ≤ 0
  significand : x.m = N * 2 ^ (-x.e).toNat

theorem toNat_of_nonpos {e : Int} (h : e ≤ 0) : e.toNat = 0 := Int.toNat_eq_zero.mpr h

theorem contains_iff (h : x.IsNatural N) {g : Int} (hg : 0 ≤ g) (c : Nat) :
    (x.window g).contains c = true ↔ c * 10 ^ g.toNat = N := by
  have hg' : (-g).toNat = 0 := toNat_of_nonpos (by omega)
  have hpos : 0 < 2 ^ (-x.e).toNat := Nat.pow_pos (by decide)
  have hpoint : c * (4 * 10 ^ g.toNat * 2 ^ (-x.e).toNat) =
      4 * (c * 10 ^ g.toNat * 2 ^ (-x.e).toNat) := by
    simp only [Nat.mul_assoc, Nat.mul_left_comm]
  unfold Window.contains Dyadic.window
  simp only [toNat_of_nonpos h.exponent, hg', h.significand, hpoint, Nat.pow_zero, Nat.mul_one]
  generalize c * 10 ^ g.toNat = a
  generalize 2 ^ (-x.e).toNat = P at hpos
  constructor
  · intro hcontains
    have hnear : 4 * (N * P) ≤ 4 * (a * P) + 2 ∧ 4 * (a * P) ≤ 4 * (N * P) + 2 := by
      split at hcontains
      all_goals
        simp only [Bool.and_eq_true, decide_eq_true_eq] at hcontains
        split at hcontains <;> omega
    rcases Nat.lt_trichotomy a N with hlt | heq | hgt
    · have hstep := Nat.mul_le_mul_right P (Nat.succ_le_of_lt hlt)
      rw [Nat.succ_mul] at hstep
      omega
    · exact heq
    · have hstep := Nat.mul_le_mul_right P (Nat.succ_le_of_lt hgt)
      rw [Nat.succ_mul] at hstep
      omega
  · rintro rfl
    split
    · simp only [Bool.and_eq_true, decide_eq_true_eq]
      omega
    · simp only [Bool.and_eq_true, decide_eq_true_eq]
      split <;> omega

theorem contains_of_nearest? {w : Window} {c : Nat} (h : w.nearest? = some c) :
    w.contains c = true := by
  unfold Window.nearest? at h
  simp only at h
  split at h <;> try split at h
  all_goals simp_all

theorem nearest?_isSome {w : Window} (h : w.contains (w.centre / w.step) = true) :
    w.nearest?.isSome = true := by
  unfold Window.nearest?
  simp only [h]
  split <;> try split
  all_goals simp_all

theorem nearest?_integers (h : x.IsNatural N) : (x.window 0).nearest?.isSome = true := by
  have hstep : 0 < 4 * 2 ^ (-x.e).toNat := by positivity
  have hcentre : (x.window 0).centre / (x.window 0).step = N := by
    unfold Dyadic.window
    simp only [toNat_of_nonpos h.exponent, h.significand, Int.toNat_zero, Int.neg_zero,
      Nat.pow_zero, Nat.mul_one, ← Nat.mul_assoc]
    rw [Nat.mul_comm 4 N, Nat.mul_assoc]
    exact Nat.mul_div_cancel _ hstep
  have hcontains : (x.window 0).contains N = true :=
    (contains_iff h (le_refl 0) N).mpr (by simp)
  exact nearest?_isSome (by rw [hcentre, hcontains])

theorem magnitude_bounds (h : x.IsNatural N) (hpos : 0 < N) (hlt : N < 2 ^ 24) :
    1 ≤ x.magnitude ∧ x.magnitude ≤ 17 := by
  have hlog : x.m.log2 = N.log2 + (-x.e).toNat := by
    rw [h.significand, ← Nat.shiftLeft_eq, log2_shiftLeft hpos]
  have hbits : N.log2 < 24 := (Nat.log2_lt hpos.ne').mpr hlt
  have hexponent := h.exponent
  have hbelow : x.isBelow 0 = false := by
    have hle := Nat.mul_le_mul_right (2 ^ (-x.e).toNat) (Nat.succ_le_of_lt hpos)
    unfold Dyadic.isBelow
    simp only [toNat_of_nonpos hexponent, h.significand, Int.toNat_zero, Int.neg_zero,
      Nat.pow_zero, Nat.mul_one, Nat.one_mul, decide_eq_false_iff_not, Nat.not_lt] at hle ⊢
    omega
  have htotal : (x.m.log2 + x.e) * 30103 / 100000 = (N.log2 : Int) * 30103 / 100000 := by
    have hsum : (x.m.log2 : Int) + x.e = N.log2 := by omega
    rw [hsum]
  unfold Dyadic.magnitude
  simp only [htotal]
  split
  · next hestimate =>
    have hne : (N.log2 : Int) * 30103 / 100000 ≠ 0 := by
      intro hzero
      rw [hzero, hbelow] at hestimate
      cases hestimate
    omega
  · split
    · omega
    · split <;> omega

theorem shortest_natural (h : x.IsNatural N) (hpos : 0 < N) (hlt : N < 2 ^ 24) :
    0 ≤ x.shortest.2 ∧ x.shortest.1 * 10 ^ x.shortest.2.toNat = N := by
  obtain ⟨hone, hmany⟩ := magnitude_bounds h hpos hlt
  obtain ⟨k, hk⟩ : ∃ k : Nat, x.magnitude = k + 1 := ⟨(x.magnitude - 1).toNat, by omega⟩
  let found := fun n : Nat =>
    (x.window (x.magnitude - (n + 1))).nearest?.map (·, x.magnitude - ((n : Int) + 1))
  have hsome : ((List.range (k + 1)).findSome? found).isSome = true := by
    refine List.findSome?_isSome_iff.mpr ⟨k, List.mem_range.mpr (Nat.lt_succ_self k), ?_⟩
    have hgrid : x.magnitude - ((k : Int) + 1) = 0 := by omega
    simp only [found, hgrid, Option.isSome_map]
    exact nearest?_integers h
  obtain ⟨⟨c, g⟩, hfirst⟩ := Option.isSome_iff_exists.mp hsome
  have hshortest : x.shortest = (c, g) := by
    have hrange : List.range 17 = List.range (k + 1) ++
        (List.range (16 - k)).map (fun n => k + 1 + n) := by
      rw [← List.range_add]
      congr 1
      omega
    unfold Dyadic.shortest
    simp only
    rw [hrange, List.findSome?_append, hfirst]
    rfl
  obtain ⟨n, hn, hat⟩ := List.exists_of_findSome?_eq_some hfirst
  obtain ⟨d, hd, heq⟩ := Option.map_eq_some_iff.mp hat
  obtain ⟨rfl, rfl⟩ := Prod.mk.inj heq
  have hgrid : 0 ≤ x.magnitude - ((n : Int) + 1) := by
    have := List.mem_range.mp hn
    omega
  rw [hshortest]
  exact ⟨hgrid, (contains_iff h hgrid d).mp (contains_of_nearest? hd)⟩

end Shortest

theorem isNatural_of_denotes {m : Nat} {e : Int} {N : Nat}
    (hfull : 2 ^ Format.binary32.mantissaBitsWithoutImplicit ≤ m ∨ e = Format.binary32.minExponent)
    (h : (m : ℚ) * 2 ^ e = N) (hlt : N < 2 ^ 24) :
    (Shortest.Dyadic.ofFinite .binary32 m e).IsNatural N := by
  have hexponent : e ≤ 0 := by
    rcases hfull with hfull | rfl
    · refine Int.not_lt.mp fun hpos => ?_
      have hm : (2 : ℚ) ^ 23 ≤ m := by exact_mod_cast hfull
      have hpow : (2 : ℚ) ^ (1 : Int) ≤ 2 ^ e := zpow_le_zpow_right₀ (by norm_num) hpos
      have hlarge : (2 : ℚ) ^ 23 * 2 ^ (1 : Int) ≤ m * 2 ^ e := by gcongr
      have hsmall : (N : ℚ) < 2 ^ 24 := by exact_mod_cast hlt
      rw [h] at hlarge
      norm_num at hlarge hsmall
      linarith
    · decide
  refine ⟨hexponent, ?_⟩
  have hcast : (m : ℚ) = ((N * 2 ^ (-e).toNat : Nat) : ℚ) := by
    have hsum : e + ((-e).toNat : Int) = 0 := by omega
    push_cast
    rw [← h, mul_assoc, ← zpow_natCast, ← zpow_add₀ (by norm_num), hsum, zpow_zero, mul_one]
  exact_mod_cast hcast

theorem decimalValue_plainDecimal {c : Nat} {g : Int} (hg : 0 ≤ g) :
    plainDecimal c g ≠ [] ∧ (∀ d ∈ plainDecimal c g, isDigit d = true) ∧
      decimalValue (plainDecimal c g) = c * 10 ^ g.toNat := by
  obtain ⟨whole, fraction, hplain, htext, k, hk, hvalue⟩ := plainDecimal_eq_source c g
  obtain ⟨hne, hwhole, hfraction, -⟩ := hplain
  obtain rfl : fraction = none := by
    cases fraction with
    | none => rfl
    | some places =>
      have hpos := List.length_pos_iff.mpr (hfraction places rfl).1
      rw [Option.getD_some] at hk
      omega
  obtain rfl : k = 0 := by omega
  rw [Option.getD_none, List.append_nil, Nat.pow_zero, Nat.mul_one] at hvalue
  rw [htext, Numeral.fractionSource, List.append_nil]
  exact ⟨hne, hwhole, hvalue⟩

theorem numberText_integer {n : Numeral} (hinteger : n.isInteger = true)
    (hdigits : ∀ c ∈ n.whole, isDigit c = true) (h : decimalValue n.whole < 2 ^ 24) :
    ∃ digits, digits ≠ [] ∧ (∀ c ∈ digits, isDigit c = true) ∧
      decimalValue digits = decimalValue n.whole ∧
      Css.numberText n = (if Sign.isMinus n.sign then ['-'] else []) ++ digits := by
  have hdenotes := denotes_singleValue hinteger hdigits h
  have hsigned : ∀ text, signed n.floatSign text =
      (if Sign.isMinus n.sign then ['-'] else []) ++ text := by
    intro text
    unfold Numeral.floatSign
    cases Sign.isMinus n.sign <;> rfl
  unfold Css.numberText writeSingle
  generalize hx : ((decimalValue n.whole : Nat) : ℚ) = x at hdenotes
  generalize (Css.singleValue n).toModel.unpack = u at hdenotes ⊢
  cases hdenotes with
  | zero =>
    have hzero : decimalValue n.whole = 0 := by exact_mod_cast hx
    exact ⟨['0'], by simp, by simp [isDigit], by rw [hzero]; rfl, hsigned _⟩
  | @finite m e hm hbits hmin hfull =>
    have hnatural := isNatural_of_denotes hfull hx.symm h
    have hpos : 0 < decimalValue n.whole := by
      have hvalue : (0 : ℚ) < (decimalValue n.whole : Nat) := by
        rw [hx]
        positivity
      exact_mod_cast hvalue
    obtain ⟨hg, hvalue⟩ := Shortest.shortest_natural hnatural hpos h
    obtain ⟨hne, hall, hdecimal⟩ := decimalValue_plainDecimal hg
    exact ⟨_, hne, hall, hdecimal.trans hvalue, hsigned _⟩

theorem readFloat?_digits {digits : List Char} (hne : digits ≠ [])
    (hdigits : ∀ c ∈ digits, isDigit c = true) :
    readFloat? digits = some (Decimal.finite false (decimalValue digits) 0).toFloat := by
  have hplain : Numeral.IsPlain ⟨none, digits, none, none⟩ := ⟨hne, hdigits, by simp, rfl⟩
  have hsource : Numeral.source ⟨none, digits, none, none⟩ = digits := by
    simp [Numeral.source, Sign.source, Numeral.fractionSource, Exponent.source]
  have hscan := Numeral.scan_source hplain true
  rw [hsource] at hscan
  unfold readFloat?
  rw [Decimal.ofText?_source hscan, Option.map_some]
  simp [Decimal.ofNumeral, Sign.isMinus, Numeral.fractionDigits]

end ClassStyle
