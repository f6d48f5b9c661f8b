import ClassStyle.Proofs.Integers

/-!
# Numbers with a bound

A number between `- 2 ^ k` and `2 ^ k` stays within such a bound through products, quotients,
differences and limits (`AtMost`). So nothing that is computed of such numbers is infinite or no
number at all, as long as the bounds stay below `2 ^ 1024`.
-/

namespace ClassStyle

open Float.Model hiding pack unpack add sub mul div neg
open UnpackedFloat

/-! ## What bits stand for -/

section

variable {F : Format} {s : UnpackedFloat.Sign}

theorem toNat_lt_of_ne {n : Nat} {v : BitVec n} (h : v ≠ -1#n) : v.toNat + 1 < 2 ^ n := by
  have hlt := v.isLt
  refine Nat.lt_of_le_of_ne hlt fun heq => h ?_
  apply BitVec.eq_of_toNat_eq
  rw [BitVec.neg_one_eq_allOnes, BitVec.toNat_allOnes]
  omega

theorem unpack_finite (hF : 2 ≤ F.exponentBits) {b : BitVec F.numBits} {m : Nat} {e : Int}
    {hm : 0 < m} (h : unpack F b = .finite s m e hm) :
    Denotes F s (unpack F b) (m * 2 ^ e) ∧ e + F.mantissaBits ≤ 2 ^ (F.exponentBits - 1) := by
  have hbias := exponentBias_add_one hF
  have hleast := minExponent_eq hF
  have hhalf : 2 ^ F.exponentBits = 2 * 2 ^ (F.exponentBits - 1) := by
    rw [← Nat.pow_succ']
    congr 1
    omega
  have hbits : 2 ^ F.mantissaBits = 2 * 2 ^ F.mantissaBitsWithoutImplicit := by
    unfold Format.mantissaBits
    rw [Nat.pow_add, Nat.pow_one]
  have hlt := (unpackMantissa b).isLt
  rw [h]
  unfold unpack at h
  simp only at h
  zify at hhalf hbias
  unfold Format.mantissaBits
  split at h
  · split at h <;> cases h
  · next hlarge =>
    have hexponent := toNat_lt_of_ne hlarge
    zify at hexponent
    split at h
    · split at h
      · cases h
      · next hzero hne =>
        cases h
        rw [hzero, BitVec.toNat_ofNat, Nat.zero_mod] at *
        have he : ((0 : Nat) : Int) - (F.exponentBias + F.mantissaBitsWithoutImplicit) + 1 =
            F.minExponent := by
          rw [hleast]
          push_cast
          omega
        refine ⟨.finite _ (by omega) he.ge (.inr he), ?_⟩
        push_cast
        omega
    · next hzero =>
      cases h
      have hpos : 0 < (unpackExponent b).toNat := by
        refine Nat.pos_of_ne_zero fun heq => hzero ?_
        apply BitVec.eq_of_toNat_eq
        rw [heq, BitVec.toNat_ofNat, Nat.zero_mod]
      have hvalue : (1#1 ++ unpackMantissa b).toNat =
          2 ^ F.mantissaBitsWithoutImplicit + (unpackMantissa b).toNat := by
        rw [BitVec.toNat_append, ← Nat.shiftLeft_add_eq_or_of_lt hlt, Nat.shiftLeft_eq]
        simp
      refine ⟨.finite _ (by omega) (by omega) (.inl (by omega)), ?_⟩
      push_cast
      omega

theorem succ_mul_le (hF : 2 ≤ F.exponentBits) {b : BitVec F.numBits}
    {m : Nat} {e : Int} {hm : 0 < m} (h : unpack F b = .finite s m e hm) :
    ((m : ℚ) + 1) * 2 ^ e ≤ 2 ^ 2 ^ (F.exponentBits - 1) := by
  obtain ⟨hdenotes, he⟩ := unpack_finite hF h
  rw [h] at hdenotes
  have hbits : m < 2 ^ F.mantissaBits := by
    cases hdenotes with
    | finite _ hbits => exact hbits
  have hrat : (m : ℚ) + 1 ≤ 2 ^ F.mantissaBits := by exact_mod_cast hbits
  calc ((m : ℚ) + 1) * 2 ^ e ≤ 2 ^ F.mantissaBits * 2 ^ e :=
        mul_le_mul_of_nonneg_right hrat (by positivity)
    _ = 2 ^ (e + F.mantissaBits) := by
        rw [zpow_add₀ (by norm_num), zpow_natCast, mul_comm]
    _ ≤ 2 ^ ((2 ^ (F.exponentBits - 1) : Nat) : Int) := by
        apply zpow_le_zpow_right₀ (by norm_num)
        exact_mod_cast he
    _ = 2 ^ 2 ^ (F.exponentBits - 1) := zpow_natCast _ _

end

/-! ## Sums -/

section

variable {F : Format} {s₁ s₂ : UnpackedFloat.Sign} {u v : UnpackedFloat} {x y : ℚ}

theorem nearest_normalize (F : Format) (n e : Int) :
    Nearest F (if n < 0 then .negative else .positive) (n.natAbs * 2 ^ e)
      (UnpackedFloat.normalize F n e .positive) := by
  unfold UnpackedFloat.normalize
  rcases Int.lt_trichotomy n 0 with hn | rfl | hn
  · have hnat : (-n).toNat = n.natAbs := by omega
    rw [Int.compare_eq_lt.mpr hn, hnat, if_pos hn]
    exact nearest_round F .negative (by omega) e
  · rw [Int.natAbs_zero, Nat.cast_zero, zero_mul]
    exact Denotes.zero.nearest
  · have hnat : n.toNat = n.natAbs := by omega
    rw [Int.compare_eq_gt.mpr hn, hnat, if_neg (by omega)]
    exact nearest_round F .positive (by omega) e

theorem natAbs_apply (s : UnpackedFloat.Sign) (n : Nat) : (s.apply n).natAbs = n := by
  cases s <;> simp [Sign.apply]

theorem nearest_sub (hu : Denotes F s₁ u x) (hv : Denotes F s₂ v y) :
    ∃ s z, z ≤ x + y ∧ Nearest F s z (sub F u v) := by
  cases hu with
  | zero =>
    cases hv with
    | zero =>
      unfold sub
      simp only
      split
      · exact ⟨s₁, 0, by norm_num, Denotes.zero.nearest⟩
      · exact ⟨.positive, 0, by norm_num, Denotes.zero.nearest⟩
    | finite hm hbits hmin hfull =>
      exact ⟨_, _, (zero_add _).ge, (Denotes.finite hm hbits hmin hfull).nearest⟩
  | finite hm₁ hbits₁ hmin₁ hfull₁ =>
    cases hv with
    | zero => exact ⟨_, _, (add_zero _).ge, (Denotes.finite hm₁ hbits₁ hmin₁ hfull₁).nearest⟩
    | finite hm₂ hbits₂ hmin₂ hfull₂ =>
      rename_i m₁ e₁ m₂ e₂
      unfold sub decreaseExponent
      simp only
      generalize hn₁ : m₁ <<< (e₁ - min e₁ e₂).toNat = n₁
      generalize hn₂ : m₂ <<< (e₂ - min e₁ e₂).toNat = n₂
      refine ⟨_, _, ?_, nearest_normalize F (s₁.apply (n₁ : Int) - s₂.apply (n₂ : Int)) (min e₁ e₂)⟩
      rw [aligned_add, hn₁, hn₂]
      apply mul_le_mul_of_nonneg_right _ (by positivity)
      have habs := Int.natAbs_sub_le (s₁.apply (n₁ : Int)) (s₂.apply (n₂ : Int))
      rw [natAbs_apply, natAbs_apply] at habs
      exact_mod_cast habs

theorem Denotes.nonneg {s : UnpackedFloat.Sign} (h : Denotes F s u x) : 0 ≤ x := by
  cases h with
  | zero => exact le_refl 0
  | finite => positivity

theorem Denotes.neg {s : UnpackedFloat.Sign} (h : Denotes F s u x) :
    Denotes F (-s) (UnpackedFloat.neg u) x := by
  cases h with
  | zero => exact .zero
  | finite hm hbits hmin hfull => exact .finite hm hbits hmin hfull

end

/-! ## Numbers with a bound -/

/-- The number is finite and lies between `- 2 ^ k` and `2 ^ k`. -/
def AtMost (k : Nat) (x : Float) : Prop := ∃ y, magnitude? x.toModel.unpack = some y ∧ y ≤ 2 ^ k

section

variable {j k : Nat} {s : UnpackedFloat.Sign} {u : UnpackedFloat} {x z : Float} {y : ℚ}

theorem atMost_of_denotes (h : Denotes .binary64 s x.toModel.unpack y) (hy : y ≤ 2 ^ k) :
    AtMost k x := ⟨y, magnitude?_of_denotes h, hy⟩

theorem AtMost.denotes (h : AtMost k x) :
    ∃ s y, Denotes .binary64 s x.toModel.unpack y ∧ y ≤ 2 ^ k := by
  obtain ⟨y, hmagnitude, hy⟩ := h
  have hunpack : x.toModel.unpack = unpack .binary64 x.toModel.toBits.toBitVec := rfl
  generalize hx : x.toModel.unpack = u at *
  cases u with
  | notANumber => cases hmagnitude
  | infinity => cases hmagnitude
  | zero s =>
    obtain rfl := Option.some.inj hmagnitude
    exact ⟨s, 0, .zero, hy⟩
  | finite s m e hm =>
    obtain rfl := Option.some.inj hmagnitude
    refine ⟨s, _, ?_, hy⟩
    have hdenotes := (unpack_finite (by decide) hunpack.symm).1
    rwa [← hunpack] at hdenotes

theorem AtMost.isFinite (h : AtMost k x) : x.isFinite = true := by
  obtain ⟨y, hmagnitude, -⟩ := h
  exact isFinite_of_magnitude? hmagnitude

theorem AtMost.mono (h : AtMost j x) (hjk : j ≤ k) : AtMost k x := by
  obtain ⟨y, hmagnitude, hy⟩ := h
  exact ⟨y, hmagnitude, hy.trans (pow_le_pow_right₀ (by norm_num) hjk)⟩

theorem inFormat_two_pow (hk : k < 1024) : InFormat .binary64 (2 ^ k) :=
  ⟨1, k, by decide, by simp [Format.binary64, Format.minExponent]; omega, by simp⟩

theorem atMost_of_rounded (h : Rounded .binary64 s y u) (hy : y ≤ 2 ^ k) (hk : k < 1024)
    (hx : x.toModel.unpack = unpack .binary64 (pack .binary64 u)) : AtMost k x := by
  obtain ⟨y', hle, hdenotes, hunpack⟩ := h.unpack_pack_of_le (by decide) (inFormat_two_pow hk) hy
    (pow_lt_pow_right₀ (by norm_num) hk)
  refine atMost_of_denotes (s := s) ?_ hle
  rwa [hx, hunpack]

theorem AtMost.mul (hx : AtMost j x) (hz : AtMost k z) (hjk : j + k < 1024) :
    AtMost (j + k) (x * z) := by
  obtain ⟨s, y, hy, hyle⟩ := hx.denotes
  obtain ⟨t, w, hw, hwle⟩ := hz.denotes
  refine atMost_of_rounded (nearest_mul hy hw).rounded ?_ hjk rfl
  rw [pow_add]
  exact mul_le_mul hyle hwle hw.nonneg (by positivity)

theorem AtMost.div (h : AtMost k x) (hk : k < 1024) {t : UnpackedFloat.Sign} {w : ℚ}
    (hz : Denotes .binary64 t z.toModel.unpack w) (hw : 1 ≤ w) : AtMost k (x / z) := by
  obtain ⟨s, y, hy, hyle⟩ := h.denotes
  have hne : w ≠ 0 := (lt_of_lt_of_le one_pos hw).ne'
  refine atMost_of_rounded (nearest_div hy hz hne).rounded ?_ hk rfl
  exact (div_le_self hy.nonneg hw).trans hyle

theorem AtMost.hundredth (h : AtMost k x) (hk : k < 1024) : AtMost k (x / 100) := by
  have hhundred : Denotes .binary64 .positive (100 : Float).toModel.unpack
      (((100 * 2 ^ 46 : Nat) : ℚ) * 2 ^ (-46 : Int)) :=
    .finite (by decide) (by decide) (by decide) (.inl (by decide))
  exact h.div hk hhundred (by norm_num)

theorem AtMost.one_sub (h : AtMost k x) (hk : k + 1 < 1024) : AtMost (k + 1) (1 - x) := by
  obtain ⟨s, y, hy, hyle⟩ := h.denotes
  have hone : Denotes .binary64 .positive (1 : Float).toModel.unpack (1 : Nat) :=
    denotes_ofNat (k := 1) (by decide)
  obtain ⟨t, w, hwle, hnearest⟩ := nearest_sub hone hy
  refine atMost_of_rounded hnearest.rounded ?_ hk rfl
  have hpow : (1 : ℚ) ≤ 2 ^ k := one_le_pow₀ (by norm_num)
  rw [pow_succ]
  push_cast at hwle
  linarith

theorem AtMost.neg (h : AtMost k x) (hk : k < 1024) : AtMost k (-x) := by
  obtain ⟨s, y, hy, hyle⟩ := h.denotes
  exact atMost_of_rounded hy.neg.nearest.rounded hyle hk rfl

theorem AtMost.limit {low high : Float} (hlow : AtMost k low) (hhigh : AtMost k high)
    (h : AtMost k x) : AtMost k (limit low high x) := by
  unfold ClassStyle.limit
  split
  · exact hlow
  · split
    · exact hhigh
    · exact h

end

end ClassStyle
