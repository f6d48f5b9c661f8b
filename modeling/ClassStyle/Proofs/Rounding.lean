import ClassStyle.Proofs.Nearest

/-!
# Rounding

Each operation on floating-point numbers gives the nearest number of the format to its exact
result, however large that is, and the bits of a number give the number back. So a number of the
format is kept as it is, and rounding never crosses a bound that the format knows.
-/

namespace ClassStyle

open Float.Model hiding pack unpack add mul div
open UnpackedFloat

/-! ## Rounding to the bits of a format -/

section

variable {F : Format} {s : Sign} {m : Nat} {e : Int} {a : Accuracy} {x : ℚ}

theorem shiftToTargetExponent_fst (F : Format) (m : Nat) (e : Int) (a : Accuracy) :
    (shiftToTargetExponent F m e a).1 =
      ExtendedMantissa.ofMantissaAndAccuracy m a >>>
        (F.targetExponent (totalExponent m e) - e).toNat := rfl

theorem shiftToTargetExponent_snd (h : e ≤ F.targetExponent (totalExponent m e)) :
    (shiftToTargetExponent F m e a).2 = F.targetExponent (totalExponent m e) := by
  show e + ((F.targetExponent (totalExponent m e) - e).toNat : Int) = _
  omega

theorem log2_lt_of_lt_two_pow {m n : Nat} (hn : 0 < n) (h : m < 2 ^ n) : m.log2 < n := by
  by_cases hm : m = 0
  · simpa [hm] using hn
  · exact (Nat.log2_lt hm).mpr h

theorem shift_of_fits {r : Nat} (hr : r < 2 ^ F.mantissaBits) (he : F.minExponent ≤ e) :
    shiftToTargetExponent F r e .exact = (⟨r, false, false⟩, e) := by
  have hbits : 0 < F.mantissaBits := by
    unfold Format.mantissaBits
    omega
  have hlog := log2_lt_of_lt_two_pow hbits hr
  have htarget : (F.targetExponent (totalExponent r e) - e).toNat = 0 := by
    unfold Format.targetExponent totalExponent
    omega
  unfold shiftToTargetExponent shiftToExponent
  simp only [htarget]
  simp [HShiftRight.hShiftRight, Nat.repeat, ExtendedMantissa.ofMantissaAndAccuracy]

theorem shift_of_carry (he : F.minExponent ≤ e) :
    shiftToTargetExponent F (2 ^ F.mantissaBits) e .exact =
      (⟨2 ^ F.mantissaBitsWithoutImplicit, false, false⟩, e + 1) := by
  have htarget : F.targetExponent (totalExponent (2 ^ F.mantissaBits) e) = e + 1 := by
    unfold Format.targetExponent totalExponent
    rw [Nat.log2_two_pow]
    omega
  have hpow : 2 ^ F.mantissaBits = 2 * 2 ^ F.mantissaBitsWithoutImplicit := by
    rw [← Nat.pow_succ']
    congr 1
    unfold Format.mantissaBits
    omega
  have hone : (e + 1 - e).toNat = 1 := by omega
  unfold shiftToTargetExponent shiftToExponent
  simp only [htarget, hone]
  refine Prod.ext ?_ rfl
  show (ExtendedMantissa.mk (2 ^ F.mantissaBits) false false).shiftRightOne = _
  simp [hpow, ExtendedMantissa.shiftRightOne]

theorem div_two_pow_lt (F : Format) (m : Nat) (e : Int) :
    m / 2 ^ (F.targetExponent (totalExponent m e) - e).toNat < 2 ^ F.mantissaBits := by
  apply (Nat.div_lt_iff_lt_mul (by positivity)).mpr
  rw [← Nat.pow_add]
  refine lt_of_lt_of_le (Nat.lt_log2_self (n := m)) (Nat.pow_le_pow_right (by decide) ?_)
  unfold Format.targetExponent totalExponent
  omega

theorem le_div_two_pow (he : e ≤ F.targetExponent (totalExponent m e))
    (hmin : F.minExponent < F.targetExponent (totalExponent m e)) :
    2 ^ F.mantissaBitsWithoutImplicit ≤
      m / 2 ^ (F.targetExponent (totalExponent m e) - e).toNat := by
  have hm : m ≠ 0 := by
    rintro rfl
    unfold Format.targetExponent totalExponent Format.mantissaBits at *
    have hpos := F.hm
    simp only [Nat.log2_zero] at *
    omega
  apply (Nat.le_div_iff_mul_le (by positivity)).mpr
  rw [← Nat.pow_add]
  refine le_trans (Nat.pow_le_pow_right (by decide) ?_) (Nat.log2_self_le hm)
  unfold Format.targetExponent totalExponent Format.mantissaBits at *
  omega

theorem denotes_shift {r : Nat} {t : Int} (hr : r ≤ 2 ^ F.mantissaBits)
    (hmin : F.minExponent ≤ t)
    (hfull : F.minExponent < t → 2 ^ F.mantissaBitsWithoutImplicit ≤ r) :
    Denotes F s
      (if h : (shiftToTargetExponent F r t .exact).1.mantissa = 0 then .zero s
        else .finite s (shiftToTargetExponent F r t .exact).1.mantissa
          (shiftToTargetExponent F r t .exact).2 (Nat.pos_of_ne_zero h))
      (r * 2 ^ t) := by
  by_cases hcarry : r < 2 ^ F.mantissaBits
  · rw [shift_of_fits hcarry hmin]
    by_cases hzero : r = 0
    · subst hzero
      simpa using Denotes.zero
    · simp only [hzero, dite_false]
      refine Denotes.finite _ hcarry hmin ?_
      by_cases hleast : t = F.minExponent
      · exact .inr hleast
      · exact .inl (hfull (lt_of_le_of_ne hmin (Ne.symm hleast)))
  · obtain rfl : r = 2 ^ F.mantissaBits := by omega
    have hpos : 2 ^ F.mantissaBitsWithoutImplicit ≠ 0 := by positivity
    have hvalue : ((2 ^ F.mantissaBits : Nat) : ℚ) * 2 ^ t =
        ((2 ^ F.mantissaBitsWithoutImplicit : Nat) : ℚ) * 2 ^ (t + 1) := by
      exact_mod_cast two_pow_mantissaBits F t
    have hbits : F.mantissaBitsWithoutImplicit < F.mantissaBits := by
      unfold Format.mantissaBits
      omega
    rw [shift_of_carry hmin, hvalue]
    simp only [hpos, dite_false]
    refine Denotes.finite (by positivity) ?_ (by omega) (.inl (le_refl _))
    exact Nat.pow_lt_pow_right (by decide) hbits

theorem hasExponent_target (he : e ≤ F.targetExponent (totalExponent m e)) (hlow : m * 2 ^ e ≤ x)
    (hhigh : x < (m + 1) * 2 ^ e) : HasExponent F x (F.targetExponent (totalExponent m e)) := by
  have hlt := div_two_pow_lt F m e
  have hfull := le_div_two_pow he
  have hmin : F.minExponent ≤ F.targetExponent (totalExponent m e) := by
    unfold Format.targetExponent
    omega
  generalize F.targetExponent (totalExponent m e) = t at *
  obtain ⟨k, rfl⟩ : ∃ k : Nat, t = e + k := ⟨(t - e).toNat, by omega⟩
  have hk : (e + k - e).toNat = k := by omega
  rw [hk] at hlt hfull
  have hsplit : (2 : ℚ) ^ (e + k) = 2 ^ k * 2 ^ e := by
    rw [add_comm, zpow_add₀ (by norm_num), zpow_natCast]
  refine ⟨hmin, ?_, fun hleast => ?_⟩
  · have hm : m + 1 ≤ 2 ^ F.mantissaBits * 2 ^ k := (Nat.div_lt_iff_lt_mul (by positivity)).mp hlt
    have hcast : (m : ℚ) + 1 ≤ 2 ^ F.mantissaBits * 2 ^ k := by exact_mod_cast hm
    rw [hsplit, ← mul_assoc]
    exact hhigh.trans_le (mul_le_mul_of_nonneg_right hcast (by positivity))
  · have hm : 2 ^ F.mantissaBitsWithoutImplicit * 2 ^ k ≤ m :=
      (Nat.le_div_iff_mul_le (by positivity)).mp (hfull hleast)
    have hcast : (2 : ℚ) ^ F.mantissaBitsWithoutImplicit * 2 ^ k ≤ m := by exact_mod_cast hm
    rw [hsplit, ← mul_assoc]
    exact (mul_le_mul_of_nonneg_right hcast (by positivity)).trans hlow

/-- Rounding a significand with what stands behind it, `x` in all. -/
theorem nearest_roundWithAccuracy (he : e ≤ F.targetExponent (totalExponent m e))
    (h : Describes (.ofMantissaAndAccuracy m a) (x / 2 ^ e)) :
    Nearest F s x (roundWithAccuracy F s m e a) := by
  have hpos : (0 : ℚ) < 2 ^ e := by positivity
  obtain ⟨hlow, hhigh⟩ := h.bounds
  rw [mantissa_ofMantissaAndAccuracy] at hlow hhigh
  have hexponent : HasExponent F x (F.targetExponent (totalExponent m e)) :=
    hasExponent_target he ((le_div_iff₀ hpos).mp hlow) ((div_lt_iff₀ hpos).mp hhigh)
  have hfirst := shiftToTargetExponent_fst F m e a
  have hsecond := shiftToTargetExponent_snd (a := a) he
  generalize F.targetExponent (totalExponent m e) = t at *
  have hnearest : IsNearest (shiftToTargetExponent F m e a).1.roundedMantissa (x / 2 ^ t) := by
    have hsplit : (2 : ℚ) ^ t = 2 ^ e * 2 ^ (t - e).toNat := by
      rw [← zpow_natCast, ← zpow_add₀ (by norm_num)]
      congr 1
      omega
    rw [hfirst, hsplit, ← div_div]
    exact (h.shiftRight _).isNearest
  have hpos' : (0 : ℚ) < 2 ^ t := by positivity
  have hbits : x / 2 ^ t ≤ (2 ^ F.mantissaBits : Nat) := by
    rw [div_le_iff₀ hpos']
    exact_mod_cast hexponent.lt.le
  have hshift := denotes_shift (s := s) (hnearest.le hbits) hexponent.least fun hleast => by
    refine hnearest.ge ((le_div_iff₀ hpos').mpr ?_)
    exact_mod_cast hexponent.full hleast
  refine ⟨_, t, hexponent, hnearest, ?_⟩
  unfold roundWithAccuracy
  simp only [hsecond]
  exact hshift

theorem nearest_exact (he : e ≤ F.targetExponent (totalExponent m e)) :
    Nearest F s (m * 2 ^ e) (roundWithAccuracy F s m e .exact) := by
  refine nearest_roundWithAccuracy he ?_
  rw [mul_div_cancel_right₀ _ (by positivity)]
  exact describes_exact m

end

/-! ## Binary logarithms -/

theorem log2_shiftLeft {m : Nat} (hm : 0 < m) (k : Nat) : (m <<< k).log2 = m.log2 + k := by
  induction k with
  | zero => rfl
  | succ k ih =>
    have hpos : m <<< k ≠ 0 := by
      rw [Nat.shiftLeft_eq]
      positivity
    rw [Nat.shiftLeft_succ, Nat.log2_two_mul hpos, ih, Nat.add_assoc]

theorem log2_le_div (n : Nat) {d : Nat} (hd : 0 < d) :
    n.log2 ≤ (n / d).log2 + d.log2 + 1 := by
  by_cases hn : n = 0
  · simp [hn]
  · apply Nat.le_of_lt_succ
    rw [Nat.log2_lt hn]
    calc n < d * (n / d + 1) := Nat.lt_mul_div_succ n hd
      _ ≤ 2 ^ (d.log2 + 1) * 2 ^ ((n / d).log2 + 1) :=
        Nat.mul_le_mul (Nat.lt_log2_self).le (Nat.succ_le_of_lt Nat.lt_log2_self)
      _ = 2 ^ ((n / d).log2 + d.log2 + 2) := by
        rw [← Nat.pow_add]
        congr 1
        omega

/-! ## Operations -/

section

variable {F : Format} {s s₁ s₂ : Sign} {u v : UnpackedFloat} {x y : ℚ}

theorem minExponent_nonpos (F : Format) : F.minExponent ≤ 0 := by
  have hbits := F.hm
  have hpow : 1 ≤ 2 ^ (F.exponentBits - 1) := Nat.one_le_two_pow
  unfold Format.minExponent Format.mantissaBits
  zify at hpow
  omega

theorem nearest_round (F : Format) (s : Sign) {m : Nat} (hm : 0 < m) (e : Int) :
    Nearest F s (m * 2 ^ e) (round F s m e) := by
  unfold UnpackedFloat.round decreaseExponent
  simp only
  generalize hk : (e - F.targetExponent (totalExponent m e)).toNat = k
  have hlog : (m <<< k).log2 = m.log2 + k := log2_shiftLeft hm k
  have htotal : totalExponent (m <<< k) (e - k) = totalExponent m e := by
    unfold totalExponent
    omega
  have hvalue : (m : ℚ) * 2 ^ e = ((m <<< k : Nat) : ℚ) * 2 ^ (e - k) := by
    rw [Nat.shiftLeft_eq, zpow_sub₀ (by norm_num), zpow_natCast]
    push_cast
    field_simp
  rw [hvalue]
  refine nearest_exact ?_
  rw [htotal]
  omega

theorem nearest_mul (hu : Denotes F s₁ u x) (hv : Denotes F s₂ v y) :
    Nearest F (s₁ * s₂) (x * y) (mul F u v) := by
  cases hu with
  | zero =>
    rw [zero_mul]
    cases hv <;> exact Denotes.zero.nearest
  | finite hm₁ hbits₁ hmin₁ hfull₁ =>
    cases hv with
    | zero =>
      rw [mul_zero]
      exact Denotes.zero.nearest
    | finite hm₂ hbits₂ hmin₂ hfull₂ =>
      rename_i m₁ e₁ m₂ e₂
      have hvalue : (m₁ : ℚ) * 2 ^ e₁ * (m₂ * 2 ^ e₂) = (m₁ * m₂ : Nat) * 2 ^ (e₁ + e₂) := by
        rw [zpow_add₀ (by norm_num)]
        push_cast
        ring
      have hpos : m₁ * m₂ ≠ 0 := by positivity
      rw [hvalue]
      refine nearest_exact ?_
      -- One of the factors has all bits, or both have the least exponent.
      have hleast := minExponent_nonpos F
      have hlog : ∀ {m : Nat}, 2 ^ F.mantissaBitsWithoutImplicit ≤ m → m ≤ m₁ * m₂ →
          F.mantissaBitsWithoutImplicit ≤ (m₁ * m₂).log2 :=
        fun hfull hle => (Nat.le_log2 hpos).mpr (hfull.trans hle)
      unfold Format.targetExponent totalExponent Format.mantissaBits
      rcases hfull₁ with hfull₁ | hfull₁
      · have := hlog hfull₁ (Nat.le_mul_of_pos_right m₁ hm₂)
        omega
      · rcases hfull₂ with hfull₂ | hfull₂
        · have := hlog hfull₂ (Nat.le_mul_of_pos_left m₂ hm₁)
          omega
        · omega

theorem nearest_quotient {m₁ m₂ : Nat} (e₁ e₂ : Int) (hm₁ : 0 < m₁) (hm₂ : 0 < m₂) :
    Nearest F (s₁ / s₂) (m₁ * 2 ^ e₁ / (m₂ * 2 ^ e₂))
      (div F (.finite s₁ m₁ e₁ hm₁) (.finite s₂ m₂ e₂ hm₂)) := by
  unfold div divCore
  simp only
  generalize hlast : min (e₁ - e₂)
    (F.targetExponent (totalExponent m₁ e₁ - totalExponent m₂ e₂)) = last
  generalize hk : (e₁ - e₂ - last).toNat = k
  have hlog : (m₁ <<< k).log2 = m₁.log2 + k := log2_shiftLeft hm₁ k
  have hvalue : (m₁ : ℚ) * 2 ^ e₁ / (m₂ * 2 ^ e₂) = (m₁ <<< k : Nat) / m₂ * 2 ^ last := by
    have hexponent : e₁ = last + k + e₂ := by omega
    rw [hexponent, Nat.shiftLeft_eq, zpow_add₀ (by norm_num), zpow_add₀ (by norm_num),
      zpow_natCast]
    push_cast
    field_simp
  generalize m₁ <<< k = n at *
  rw [hvalue]
  refine nearest_roundWithAccuracy ?_ ?_
  · -- The quotient has at most one bit less than the exponents of the two promise.
    have hquotient := log2_le_div n hm₂
    unfold Format.targetExponent totalExponent at *
    omega
  · rw [mul_div_cancel_right₀ _ (by positivity)]
    exact describes_quotient n hm₂

theorem nearest_div (hu : Denotes F s₁ u x) (hv : Denotes F s₂ v y) (hy : y ≠ 0) :
    Nearest F (s₁ / s₂) (x / y) (div F u v) := by
  cases hv with
  | zero => exact absurd rfl hy
  | finite hm₂ =>
    cases hu with
    | zero =>
      rw [zero_div]
      exact Denotes.zero.nearest
    | finite hm₁ => exact nearest_quotient _ _ hm₁ hm₂

theorem aligned_add (m₁ m₂ : Nat) (e₁ e₂ : Int) :
    (m₁ : ℚ) * 2 ^ e₁ + m₂ * 2 ^ e₂ = (m₁ <<< (e₁ - min e₁ e₂).toNat +
      m₂ <<< (e₂ - min e₁ e₂).toNat : Nat) * 2 ^ min e₁ e₂ := by
  generalize hlast : min e₁ e₂ = last
  generalize hk₁ : (e₁ - last).toNat = k₁
  generalize hk₂ : (e₂ - last).toNat = k₂
  have he₁ : e₁ = k₁ + last := by omega
  have he₂ : e₂ = k₂ + last := by omega
  rw [he₁, he₂, zpow_add₀ (by norm_num), zpow_add₀ (by norm_num), zpow_natCast, zpow_natCast,
    Nat.shiftLeft_eq, Nat.shiftLeft_eq]
  push_cast
  ring

theorem nearest_add (hu : Denotes F .positive u x) (hv : Denotes F .positive v y) :
    Nearest F .positive (x + y) (add F u v) := by
  cases hu with
  | zero =>
    rw [zero_add]
    cases hv with
    | zero => exact Denotes.zero.nearest
    | finite hm hbits hmin hfull => exact (Denotes.finite hm hbits hmin hfull).nearest
  | finite hm₁ hbits₁ hmin₁ hfull₁ =>
    cases hv with
    | zero =>
      rw [add_zero]
      exact (Denotes.finite hm₁ hbits₁ hmin₁ hfull₁).nearest
    | finite hm₂ hbits₂ hmin₂ hfull₂ =>
      rename_i m₁ e₁ m₂ e₂
      unfold add decreaseExponent UnpackedFloat.normalize
      simp only [Sign.apply]
      rw [aligned_add]
      generalize hn₁ : m₁ <<< (e₁ - min e₁ e₂).toNat = n₁
      generalize m₂ <<< (e₂ - min e₁ e₂).toNat = n₂
      have hpos : 0 < n₁ + n₂ := by
        rw [← hn₁, Nat.shiftLeft_eq]
        positivity
      have hcompare : compare ((n₁ : Int) + n₂) 0 = .gt := by
        rw [Int.compare_eq_gt]
        exact_mod_cast hpos
      have hnat : ((n₁ : Int) + n₂).toNat = n₁ + n₂ := by omega
      rw [hcompare]
      simp only [hnat]
      exact nearest_round F .positive hpos (min e₁ e₂)

end

/-! ## Bits -/

section

variable {F : Format} {s : Sign} {u : UnpackedFloat} {x : ℚ}

theorem unpack_infinity (F : Format) (s : Sign) :
    unpack F (packedInfinity F s) = .infinity s := by
  unfold packedInfinity unpack
  simp

theorem ofNat_ne_neg_one {n k : Nat} (h : k + 1 < 2 ^ n) : BitVec.ofNat n k ≠ -1#_ := by
  intro heq
  have hnat := congrArg BitVec.toNat heq
  rw [BitVec.neg_one_eq_allOnes, BitVec.toNat_allOnes, BitVec.toNat_ofNat,
    Nat.mod_eq_of_lt (by omega)] at hnat
  omega

theorem ofNat_ne_zero {n k : Nat} (hpos : 0 < k) (h : k < 2 ^ n) : BitVec.ofNat n k ≠ 0#n := by
  intro heq
  have hnat := congrArg BitVec.toNat heq
  rw [BitVec.toNat_ofNat, BitVec.toNat_ofNat, Nat.mod_eq_of_lt h, Nat.zero_mod] at hnat
  omega

theorem finite_congr {m m' : Nat} {e e' : Int} {hm : 0 < m} {hm' : 0 < m'} (hmm : m = m')
    (hee : e = e') : UnpackedFloat.finite s m e hm = .finite s m' e' hm' := by
  subst hmm hee
  rfl

theorem unpack_normal {m k : Nat} (hm : 0 < m)
    (hfull : 2 ^ F.mantissaBitsWithoutImplicit ≤ m) (hbits : m < 2 ^ F.mantissaBits)
    (hpos : 0 < k) (hk : k + 1 < 2 ^ F.exponentBits) :
    unpack F (packComponents F s (BitVec.ofNat _ k) (BitVec.ofNat _ m)) =
      .finite s m (k - (F.exponentBias + F.mantissaBitsWithoutImplicit)) hm := by
  have htwice : 2 ^ F.mantissaBits = 2 * 2 ^ F.mantissaBitsWithoutImplicit := by
    unfold Format.mantissaBits
    rw [Nat.pow_add, Nat.pow_one]
  unfold unpack
  simp only [unpackSign_packComponents, Sign.ofBitVec_toBitVec, unpackMantissa_packComponents,
    unpackExponent_packComponents]
  rw [if_neg (ofNat_ne_neg_one hk), if_neg (ofNat_ne_zero hpos (by omega))]
  apply finite_congr
  · rw [BitVec.toNat_append, BitVec.toNat_ofNat, BitVec.toNat_ofNat,
      ← Nat.shiftLeft_add_eq_or_of_lt (Nat.mod_lt _ (by positivity)), Nat.shiftLeft_eq,
      Nat.mod_eq_sub_mod hfull, Nat.mod_eq_of_lt (a := m - _) (by omega)]
    omega
  · rw [BitVec.toNat_ofNat, Nat.mod_eq_of_lt (by omega)]

theorem unpack_subnormal (hF : 2 ≤ F.exponentBits) {m : Nat} (hm : 0 < m)
    (hbits : m < 2 ^ F.mantissaBitsWithoutImplicit) :
    unpack F (packComponents F s 0#_ (BitVec.ofNat _ m)) = .finite s m F.minExponent hm := by
  have hpow : 2 ^ 2 ≤ 2 ^ F.exponentBits := Nat.pow_le_pow_right (by decide) hF
  have hne : (0#F.exponentBits) ≠ -1#_ := ofNat_ne_neg_one (k := 0) (by omega)
  have hpos : 1 ≤ 2 ^ (F.exponentBits - 1) := Nat.one_le_two_pow
  unfold unpack
  simp only [unpackSign_packComponents, Sign.ofBitVec_toBitVec, unpackMantissa_packComponents,
    unpackExponent_packComponents]
  refine (if_neg hne).trans ((if_pos trivial).trans ?_)
  rw [dif_neg (ofNat_ne_zero hm hbits)]
  apply finite_congr
  · rw [BitVec.toNat_ofNat, Nat.mod_eq_of_lt hbits]
  · rw [BitVec.toNat_ofNat, Nat.zero_mod]
    unfold Format.minExponent Format.mantissaBits Format.exponentBias
    zify [hpos]
    omega

theorem exponentBias_add_one (hF : 2 ≤ F.exponentBits) :
    F.exponentBias + 1 = 2 ^ (F.exponentBits - 1) ∧ 1 ≤ F.exponentBias := by
  have hpow : 2 ^ 1 ≤ 2 ^ (F.exponentBits - 1) := Nat.pow_le_pow_right (by decide) (by omega)
  unfold Format.exponentBias
  omega

theorem minExponent_eq (hF : 2 ≤ F.exponentBits) :
    F.minExponent = 1 - (F.exponentBias + F.mantissaBitsWithoutImplicit : Nat) := by
  have hbias := (exponentBias_add_one hF).1
  unfold Format.minExponent Format.mantissaBits
  zify at hbias
  push_cast
  omega

theorem le_of_overflow (hF : 2 ≤ F.exponentBits) {m k : Nat} {e : Int}
    (hm : 2 ^ F.mantissaBitsWithoutImplicit ≤ m)
    (he : e = k - (F.exponentBias + F.mantissaBitsWithoutImplicit))
    (hover : 2 ^ F.exponentBits ≤ k + 1) :
    (2 : ℚ) ^ 2 ^ (F.exponentBits - 1) ≤ m * 2 ^ e := by
  have hbias := (exponentBias_add_one hF).1
  have hhalf : 2 ^ F.exponentBits = 2 * 2 ^ (F.exponentBits - 1) := by
    rw [← Nat.pow_succ']
    congr 1
    omega
  have hmRat : (2 : ℚ) ^ F.mantissaBitsWithoutImplicit ≤ m := by exact_mod_cast hm
  calc (2 : ℚ) ^ 2 ^ (F.exponentBits - 1)
      ≤ 2 ^ F.mantissaBitsWithoutImplicit * 2 ^ e := by
        rw [← zpow_natCast, ← zpow_natCast, ← zpow_add₀ (by norm_num)]
        apply zpow_le_zpow_right₀ (by norm_num)
        push_cast
        zify at hover hhalf hbias
        omega
    _ ≤ m * 2 ^ e := mul_le_mul_of_nonneg_right hmRat (by positivity)

/-- The bits of a number give the number back, unless it is too large for the format. -/
theorem unpack_pack (hF : 2 ≤ F.exponentBits) (h : Denotes F s u x) :
    unpack F (pack F u) = u ∨
      2 ^ 2 ^ (F.exponentBits - 1) ≤ x ∧ unpack F (pack F u) = .infinity s := by
  cases h with
  | zero => exact .inl unpack_packedZero
  | finite hm hbits hmin hfull =>
    rename_i m e
    have hleast := minExponent_eq hF
    have hbias := exponentBias_add_one hF
    generalize hk : (e + F.exponentBias + F.mantissaBitsWithoutImplicit).toNat = k
    have hexponent : e = k - (F.exponentBias + F.mantissaBitsWithoutImplicit) := by omega
    have hfour : 2 ^ 2 ≤ 2 ^ F.exponentBits := Nat.pow_le_pow_right (by decide) hF
    unfold pack
    simp only [hk]
    by_cases hover : 2 ^ F.exponentBits ≤ k + 1
    · rw [if_pos hover]
      refine .inr ⟨le_of_overflow hF ?_ hexponent hover, unpack_infinity F s⟩
      rcases hfull with hfull | hfull
      · exact hfull
      · omega
    · left
      rw [if_neg hover]
      by_cases hnormal : 2 ^ F.mantissaBitsWithoutImplicit ≤ m
      · have hlog : m.log2 + 1 = F.mantissaBits := by
          have hle := (Nat.le_log2 hm.ne').mpr hnormal
          have hlt := (Nat.log2_lt hm.ne').mpr hbits
          unfold Format.mantissaBits at *
          omega
        rw [if_pos hlog, unpack_normal hm hnormal hbits (by omega) (by omega)]
        exact finite_congr rfl hexponent.symm
      · have hlog : m.log2 + 1 ≠ F.mantissaBits := by
          have hlt := (Nat.log2_lt hm.ne').mpr (Nat.lt_of_not_le hnormal)
          unfold Format.mantissaBits
          omega
        rw [if_neg hlog, unpack_subnormal hF hm (Nat.lt_of_not_le hnormal)]
        exact finite_congr rfl (hfull.resolve_left hnormal).symm

end

end ClassStyle
