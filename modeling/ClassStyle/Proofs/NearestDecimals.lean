import ClassStyle.Proofs.Bounds

/-!
# Decimals and their nearest numbers

A decimal is read as the nearest number of either width, however many digits it has
(`exists_nearest_double`, `exists_nearest_single`).
-/

namespace ClassStyle

open Float.Model hiding pack unpack add sub mul div neg
open UnpackedFloat

/-! ## Decimals in a format -/

section

variable {F : Format} {s : UnpackedFloat.Sign} {x : ℚ}

theorem nearest_zero (hx : 0 ≤ x) (hsmall : x < 2 ^ (F.minExponent - 1)) :
    Nearest F s x (.zero s) := by
  have hpos : (0 : ℚ) < 2 ^ F.minExponent := by positivity
  have hhalf : x < 1 / 2 * 2 ^ F.minExponent := by
    rw [zpow_sub_one₀ (by norm_num)] at hsmall
    linarith
  refine ⟨0, F.minExponent, ⟨le_refl _, ?_, fun h => absurd h (lt_irrefl _)⟩, ?_, ?_⟩
  · have hbits : (1 : ℚ) ≤ 2 ^ F.mantissaBits := one_le_pow₀ (by norm_num)
    nlinarith
  · refine isNearest_of_lt ?_ ?_
    · rw [lt_div_iff₀ hpos]
      push_cast
      linarith
    · rw [div_lt_iff₀ hpos]
      push_cast
      linarith
  · rw [Nat.cast_zero, zero_mul]
    exact .zero

theorem div_ten_pow_lt {m k : Nat} {e : Int} (hk : (k : Int) > m.log2 - e) :
    (m : ℚ) / 10 ^ k < 2 ^ e := by
  have hm : (m : ℚ) < 2 ^ (m.log2 + 1) := by exact_mod_cast Nat.lt_log2_self
  have hten : (2 : ℚ) ^ k ≤ 10 ^ k := pow_le_pow_left₀ (by norm_num) (by norm_num) k
  calc (m : ℚ) / 10 ^ k ≤ m / 2 ^ k :=
        div_le_div_of_nonneg_left (by positivity) (by positivity) hten
    _ < 2 ^ (m.log2 + 1) / 2 ^ k := div_lt_div_of_pos_right hm (by positivity)
    _ = 2 ^ (((m.log2 + 1 : Nat) : Int) - k) := by
        rw [zpow_sub₀ (by norm_num), zpow_natCast, zpow_natCast]
    _ ≤ 2 ^ e := zpow_le_zpow_right₀ (by norm_num) (by push_cast; omega)

theorem nearest_ofScientific (hF : -F.minExponent < 2 ^ F.exponentBits) (m k : Nat) :
    Nearest F .positive (m / 10 ^ k) (UnpackedFloat.ofScientific F m (-k)) := by
  unfold UnpackedFloat.ofScientific
  split
  · next hm =>
    rw [hm, Nat.cast_zero, zero_div]
    exact Denotes.zero.nearest
  · next hm =>
    have hpos : 0 < m := Nat.pos_of_ne_zero hm
    have hlarge : ¬-(k : Int) > 2 ^ F.exponentBits := by
      have hpow : (0 : Int) < 2 ^ F.exponentBits := by positivity
      omega
    rw [if_neg hlarge]
    split
    · exact nearest_zero (by positivity) (div_ten_pow_lt (by omega))
    · split
      · next hk =>
        obtain rfl : k = 0 := by omega
        have hvalue : (m : ℚ) / 10 ^ 0 =
            ((m <<< F.mantissaBits * 10 ^ 0 : Nat) : ℚ) * 2 ^ (-F.mantissaBits + 0 : Int) := by
          rw [Nat.shiftLeft_eq, add_zero, zpow_neg, zpow_natCast]
          push_cast
          field_simp
        rw [hvalue]
        refine nearest_exact ?_
        have hlog := log2_shiftLeft hpos F.mantissaBits
        unfold Format.targetExponent totalExponent
        rw [Nat.pow_zero, Nat.mul_one, hlog]
        omega
      · have hk : (-(-(k : Int))).toNat = k := by omega
        have hvalue : (m : ℚ) / 10 ^ k =
            m * 2 ^ (0 : Int) / ((10 ^ k : Nat) * 2 ^ (0 : Int)) := by
          push_cast
          norm_num
        have hten : 0 < 10 ^ k := by positivity
        have hquotient : Nearest F (.positive / .positive) _
            (div F (.finite .positive m 0 hpos) (.finite .positive (10 ^ k) 0 hten)) :=
          nearest_quotient 0 0 hpos hten
        simp only [hk]
        rw [hvalue]
        exact hquotient

theorem nearest_normalize_natural (F : Format) (n : Nat) :
    Nearest F .positive n (UnpackedFloat.normalize F n 0 .positive) := by
  have hnearest := nearest_normalize F n 0
  rwa [if_neg (by omega), Int.natAbs_natCast, zpow_zero, mul_one] at hnearest

theorem Nearest.denotes_natural {n : Nat} {u : UnpackedFloat} (h : Nearest F s n u)
    (hF : 2 ≤ F.exponentBits) (hn : n < 2 ^ F.mantissaBits)
    (hbits : F.mantissaBits ≤ 2 ^ (F.exponentBits - 1)) :
    Denotes F s (unpack F (pack F u)) n := by
  refine h.rounded.unpack_pack_of_inFormat hF (inFormat_natCast hn) ?_
  calc (n : ℚ) < 2 ^ F.mantissaBits := by exact_mod_cast hn
    _ ≤ 2 ^ 2 ^ (F.exponentBits - 1) := pow_le_pow_right₀ (by norm_num) hbits

/-- A power of ten is kept by a format that has the bits of the power of five. -/
theorem denotes_ten_pow {k : Nat} (hF : 2 ≤ F.exponentBits) (hk : 5 ^ k < 2 ^ F.mantissaBits)
    (hbits : F.mantissaBits + k ≤ 2 ^ (F.exponentBits - 1)) :
    Denotes F .positive (unpack F (pack F (UnpackedFloat.round F .positive (10 ^ k) 0)))
      (10 ^ k) := by
  have hvalue : ((10 ^ k : Nat) : ℚ) * 2 ^ (0 : Int) = 10 ^ k := by norm_num
  have hten : (10 : ℚ) ^ k = (5 ^ k : Nat) * 2 ^ (k : Int) := by
    rw [zpow_natCast]
    push_cast
    rw [← mul_pow]
    norm_num
  have hnearest := nearest_round F .positive (m := 10 ^ k) (by positivity) 0
  rw [hvalue] at hnearest
  have hleast := minExponent_nonpos F
  refine hnearest.rounded.unpack_pack_of_inFormat hF ⟨5 ^ k, k, hk, by omega, hten⟩ ?_
  have hfive : ((5 ^ k : Nat) : ℚ) < 2 ^ F.mantissaBits := by exact_mod_cast hk
  calc (10 : ℚ) ^ k = (5 ^ k : Nat) * 2 ^ k := by rw [hten, zpow_natCast]
    _ < 2 ^ F.mantissaBits * 2 ^ k := mul_lt_mul_of_pos_right hfive (by positivity)
    _ ≤ 2 ^ 2 ^ (F.exponentBits - 1) := by
      rw [← pow_add]
      exact pow_le_pow_right₀ (by norm_num) hbits

end

/-! ## Decimals of either width -/

theorem toNat_toUInt64 {m : Nat} (h : m < 2 ^ 53) : m.toUInt64.toNat = m := by
  rw [UInt64.toNat_ofNat']
  exact Nat.mod_eq_of_lt (by omega)

section

variable {m k : Nat}

theorem denotes_whole (h : m < 2 ^ 53) :
    Denotes .binary64 .positive m.toUInt64.toFloat.toModel.unpack m := by
  have hvalue := toNat_toUInt64 h
  have hdenotes : Denotes .binary64 .positive m.toUInt64.toFloat.toModel.unpack
      (m.toUInt64.toNat : ℚ) :=
    (nearest_normalize_natural .binary64 _).denotes_natural (by decide) (hvalue.trans_lt h)
      (by decide)
  rwa [hvalue] at hdenotes

theorem denotes_wholeSingle (h : m < 2 ^ 23) :
    Denotes .binary32 .positive m.toUInt64.toFloat32.toModel.unpack m := by
  have hvalue := toNat_toUInt64 (h.trans (by decide))
  have hdenotes : Denotes .binary32 .positive m.toUInt64.toFloat32.toModel.unpack
      (m.toUInt64.toNat : ℚ) :=
    (nearest_normalize_natural .binary32 _).denotes_natural (by decide)
      (hvalue.trans_lt (h.trans (by decide))) (by decide)
  rwa [hvalue] at hdenotes

theorem powersOfTen_eq : ∀ k : Fin 23, Float.exactlyRepresentablePowersOfTen[k] =
    .ofModel (.pack (round .binary64 .positive (10 ^ k.val) 0)) := by
  decide +kernel

theorem singlePowersOfTen_eq : ∀ k : Fin 11, Float32.exactlyRepresentablePowersOfTen[k] =
    .ofModel (.pack (round .binary32 .positive (10 ^ k.val) 0)) := by
  decide +kernel

theorem denotes_powerOfTen (k : Fin 23) :
    Denotes .binary64 .positive Float.exactlyRepresentablePowersOfTen[k].toModel.unpack
      (10 ^ k.val) := by
  have hbits : ∀ k : Fin 23, 5 ^ k.val < 2 ^ Format.binary64.mantissaBits ∧
      Format.binary64.mantissaBits + k.val ≤ 2 ^ (Format.binary64.exponentBits - 1) := by decide
  rw [powersOfTen_eq]
  exact denotes_ten_pow (by decide) (hbits k).1 (hbits k).2

theorem denotes_singlePowerOfTen (k : Fin 11) :
    Denotes .binary32 .positive Float32.exactlyRepresentablePowersOfTen[k].toModel.unpack
      (10 ^ k.val) := by
  have hbits : ∀ k : Fin 11, 5 ^ k.val < 2 ^ Format.binary32.mantissaBits ∧
      Format.binary32.mantissaBits + k.val ≤ 2 ^ (Format.binary32.exponentBits - 1) := by decide
  rw [singlePowersOfTen_eq]
  exact denotes_ten_pow (by decide) (hbits k).1 (hbits k).2

theorem exponent_eq (k : Nat) :
    (if decide (-(k : Int) < 0) = true then Int.negOfNat k else Int.ofNat k) = -k := by
  split
  · cases k <;> rfl
  · next hzero =>
    obtain rfl : k = 0 := by simpa using hzero
    rfl

/-- Few digits and places make one operation on two numbers that are exact. -/
theorem nearest_scaled {F : Format} {w p : UnpackedFloat} (hw : Denotes F .positive w m)
    (hp : Denotes F .positive p (10 ^ k)) :
    Nearest F .positive (m / 10 ^ k)
      (if decide (-(k : Int) < 0) = true then div F w p else mul F w p) := by
  split
  · exact nearest_div hw hp (by positivity)
  · next hzero =>
    obtain rfl : k = 0 := by simpa using hzero
    have hmul := nearest_mul hw hp
    rw [pow_zero, mul_one] at hmul
    rwa [pow_zero, div_one]

theorem exists_nearest_double (m k : Nat) :
    ∃ u, Nearest .binary64 .positive (m / 10 ^ k) u ∧
      (Float.ofScientific m (decide (-(k : Int) < 0)) (-(k : Int)).natAbs).toModel.unpack =
        unpack .binary64 (pack .binary64 u) := by
  have habs : (-(k : Int)).natAbs = k := by omega
  rw [habs]
  unfold Float.ofScientific
  split
  · next hsmall =>
    obtain ⟨hm, hk⟩ := hsmall
    have hpower := denotes_powerOfTen ⟨k, Nat.lt_succ_of_le hk⟩
    refine ⟨_, nearest_scaled (denotes_whole hm) hpower, ?_⟩
    split <;> rfl
  · refine ⟨_, nearest_ofScientific (by decide) m k, ?_⟩
    simp only [exponent_eq]
    rfl

theorem exists_nearest_single (m k : Nat) :
    ∃ u, Nearest .binary32 .positive (m / 10 ^ k) u ∧
      (Float32.ofScientific m (decide (-(k : Int) < 0)) (-(k : Int)).natAbs).toModel.unpack =
        unpack .binary32 (pack .binary32 u) := by
  have habs : (-(k : Int)).natAbs = k := by omega
  rw [habs]
  unfold Float32.ofScientific
  split
  · next hsmall =>
    obtain ⟨hm, hk⟩ := hsmall
    have hpower := denotes_singlePowerOfTen ⟨k, Nat.lt_succ_of_le hk⟩
    refine ⟨_, nearest_scaled (denotes_wholeSingle hm) hpower, ?_⟩
    split <;> rfl
  · refine ⟨_, nearest_ofScientific (by decide) m k, ?_⟩
    simp only [exponent_eq]
    rfl

end

end ClassStyle
