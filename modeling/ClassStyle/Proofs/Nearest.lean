import Mathlib

/-!
# The nearest numbers of a format

Of all numbers of a floating-point format, the nearest one to a rational number has the nearest
significand over the last bit that the format keeps, and the even one of two (`Nearest`). It lies
on the same side of every number of the format as the rational number (`Nearest.rounded`), and
around each number of the format is an interval of those that it is nearest to
(`Nearest.eq_finite`).
-/

namespace ClassStyle

open Float.Model hiding pack unpack add mul div
open UnpackedFloat

/-! ## Significands -/

/-- What is meant by a significand and the two bits for all that is cut off behind it. -/
def Describes (em : ExtendedMantissa) (x : ℚ) : Prop :=
  match em.roundBit, em.stickyBit with
  | false, false => x = em.mantissa
  | false, true => em.mantissa < x ∧ x < em.mantissa + 1 / 2
  | true, false => x = em.mantissa + 1 / 2
  | true, true => em.mantissa + 1 / 2 < x ∧ x < em.mantissa + 1

/-- The natural number that is nearest to `x`, or the even one of two. -/
structure IsNearest (r : Nat) (x : ℚ) : Prop where
  lower : r - 1 / 2 ≤ x
  upper : x ≤ r + 1 / 2
  odd : r % 2 = 1 → r - 1 / 2 < x ∧ x < r + 1 / 2

section

variable {em : ExtendedMantissa} {r r' n : Nat} {x : ℚ}

theorem Describes.bounds (h : Describes em x) : em.mantissa ≤ x ∧ x < em.mantissa + 1 := by
  obtain ⟨m, round, sticky⟩ := em
  cases round <;> cases sticky <;> simp only [Describes] at h ⊢ <;> constructor <;> linarith

theorem Describes.shiftRightOne (h : Describes em x) : Describes em.shiftRightOne (x / 2) := by
  obtain ⟨m, round, sticky⟩ := em
  have hm : (m : ℚ) = 2 * (m / 2 : Nat) + (m % 2 : Nat) := by
    exact_mod_cast (Nat.div_add_mod m 2).symm
  rcases Nat.mod_two_eq_zero_or_one m with hparity | hparity
  all_goals
    rw [hparity] at hm
    push_cast at hm
    cases round <;> cases sticky <;>
      simp only [Describes, ExtendedMantissa.shiftRightOne, hparity, bne_self_eq_false,
        Nat.reduceBneDiff, Bool.or_true, Bool.or_false] at h ⊢
    all_goals first | linarith | constructor <;> linarith

theorem Describes.shiftRight (h : Describes em x) (k : Nat) : Describes (em >>> k) (x / 2 ^ k) := by
  induction k with
  | zero => simpa [HShiftRight.hShiftRight, Nat.repeat] using h
  | succ k ih =>
    have hstep : em >>> (k + 1) = (em >>> k).shiftRightOne := rfl
    rw [hstep, pow_succ, ← div_div]
    exact ih.shiftRightOne

theorem isNearest_of_lt (hlower : r - 1 / 2 < x) (hupper : x < r + 1 / 2) : IsNearest r x :=
  ⟨hlower.le, hupper.le, fun _ => ⟨hlower, hupper⟩⟩

theorem isNearest_of_even (hr : r % 2 = 0) (hlower : r - 1 / 2 ≤ x) (hupper : x ≤ r + 1 / 2) :
    IsNearest r x :=
  ⟨hlower, hupper, fun hodd => by omega⟩

theorem Describes.isNearest (h : Describes em x) : IsNearest em.roundedMantissa x := by
  obtain ⟨m, round, sticky⟩ := em
  have hsucc : ((m + 1 : Nat) : ℚ) = m + 1 := Nat.cast_succ m
  cases round <;> cases sticky <;>
    simp only [Describes, ExtendedMantissa.roundedMantissa, ExtendedMantissa.accuracy,
      Accuracy.roundToNearestEven] at h ⊢
  · exact isNearest_of_lt (by linarith) (by linarith)
  · exact isNearest_of_lt (by linarith) (by linarith)
  · -- Halfway, the significand is raised if it is odd.
    rcases Nat.mod_two_eq_zero_or_one m with hparity | hparity
    · rw [hparity, Nat.add_zero]
      exact isNearest_of_even hparity (by linarith) (by linarith)
    · rw [hparity]
      exact isNearest_of_even (by omega) (by linarith) (by linarith)
  · exact isNearest_of_lt (by linarith) (by linarith)

theorem describes_exact (m : Nat) : Describes (.ofMantissaAndAccuracy m .exact) m := rfl

theorem describes_quotient (n : Nat) {d : Nat} (hd : 0 < d) :
    Describes (.ofMantissaAndAccuracy (n / d) (accuracyOfFraction (n % d) d)) (n / d) := by
  have hpos : (0 : ℚ) < d := by exact_mod_cast hd
  have hquotient : (n : ℚ) / d = (n / d : Nat) + (n % d : Nat) / d := by
    have hn : (n : ℚ) = d * (n / d : Nat) + (n % d : Nat) := by
      exact_mod_cast (Nat.div_add_mod n d).symm
    rw [hn, add_div, mul_div_cancel_left₀ _ hpos.ne']
  have hlt := Nat.mod_lt n hd
  rw [hquotient]
  generalize n % d = rest at hlt ⊢
  unfold accuracyOfFraction
  split
  · next hzero =>
    rw [hzero, Nat.cast_zero, zero_div, add_zero]
    exact describes_exact _
  · next hzero =>
    have hrest : (0 : ℚ) < rest / d := div_pos (by exact_mod_cast Nat.pos_of_ne_zero hzero) hpos
    have hless : (rest : ℚ) / d < 1 := (div_lt_one hpos).mpr (by exact_mod_cast hlt)
    rcases Nat.lt_trichotomy (2 * rest) d with hhalf | hhalf | hhalf
    · have hcast : 2 * (rest : ℚ) < d := by exact_mod_cast hhalf
      have hsmall : (rest : ℚ) / d < 1 / 2 := by
        rw [div_lt_div_iff₀ hpos (by norm_num)]
        linarith
      simp only [Nat.compare_eq_lt.mpr hhalf, ExtendedMantissa.ofMantissaAndAccuracy, Describes]
      exact ⟨by linarith, by linarith⟩
    · have hcast : 2 * (rest : ℚ) = d := by exact_mod_cast hhalf
      have hequal : (rest : ℚ) / d = 1 / 2 := by
        rw [div_eq_div_iff hpos.ne' (by norm_num)]
        linarith
      rw [Nat.compare_eq_eq.mpr hhalf, hequal]
      rfl
    · have hcast : (d : ℚ) < 2 * rest := by exact_mod_cast hhalf
      have hlarge : (1 : ℚ) / 2 < rest / d := by
        rw [div_lt_div_iff₀ (by norm_num) hpos]
        linarith
      simp only [Nat.compare_eq_gt.mpr hhalf, ExtendedMantissa.ofMantissaAndAccuracy, Describes]
      exact ⟨by linarith, by linarith⟩

theorem mantissa_ofMantissaAndAccuracy (m : Nat) (a : Accuracy) :
    (ExtendedMantissa.ofMantissaAndAccuracy m a).mantissa = m := by
  cases a with
  | exact => rfl
  | inexact o => cases o <;> rfl

theorem IsNearest.le (h : IsNearest r x) (hx : x ≤ n) : r ≤ n := by
  have hlt : (r : ℚ) < (n + 1 : Nat) := by
    push_cast
    linarith [h.lower]
  exact Nat.lt_succ_iff.mp (by exact_mod_cast hlt)

theorem IsNearest.ge (h : IsNearest r x) (hx : n ≤ x) : n ≤ r := by
  have hlt : (n : ℚ) < (r + 1 : Nat) := by
    push_cast
    linarith [h.upper]
  exact Nat.lt_succ_iff.mp (by exact_mod_cast hlt)

theorem IsNearest.not_lt (h : IsNearest r x) (h' : IsNearest r' x) : ¬r < r' := by
  intro hlt
  have hsucc : (r : ℚ) + 1 ≤ r' := by exact_mod_cast hlt
  have hlower := h'.lower
  have hupper := h.upper
  obtain rfl : r' = r + 1 := by
    have hle : (r' : ℚ) ≤ (r + 1 : Nat) := by
      push_cast
      linarith
    exact le_antisymm (by exact_mod_cast hle) hlt
  -- Both would be as near, and one of them is odd.
  rcases Nat.mod_two_eq_zero_or_one r with hparity | hparity
  · have hstrict := (h'.odd (by omega)).1
    linarith
  · have hstrict := (h.odd hparity).2
    linarith

theorem IsNearest.unique (h : IsNearest r x) (h' : IsNearest r' x) : r = r' :=
  le_antisymm (Nat.not_lt.mp (h'.not_lt h)) (Nat.not_lt.mp (h.not_lt h'))

end

/-! ## Numbers of a format -/

/-- The finite number `± x` as the format keeps it: the significand has all the bits of the format
or the exponent is the least one. -/
inductive Denotes (F : Format) (sign : Sign) : UnpackedFloat → ℚ → Prop
  | zero : Denotes F sign (.zero sign) 0
  | finite {m : Nat} {e : Int} (hm : 0 < m) (hbits : m < 2 ^ F.mantissaBits)
      (hmin : F.minExponent ≤ e)
      (hfull : 2 ^ F.mantissaBitsWithoutImplicit ≤ m ∨ e = F.minExponent) :
      Denotes F sign (.finite sign m e hm) (m * 2 ^ e)

/-- The numbers that a format has below its largest exponent, and beyond it. -/
def InFormat (F : Format) (x : ℚ) : Prop :=
  ∃ (c : Nat) (q : Int), c < 2 ^ F.mantissaBits ∧ F.minExponent ≤ q ∧ x = c * 2 ^ q

/-- The last bit that the format keeps of `x` is that of `2 ^ t`. -/
structure HasExponent (F : Format) (x : ℚ) (t : Int) : Prop where
  least : F.minExponent ≤ t
  lt : x < 2 ^ F.mantissaBits * 2 ^ t
  full : F.minExponent < t → 2 ^ F.mantissaBitsWithoutImplicit * 2 ^ t ≤ x

/-- The number of the format that is nearest to `x`. -/
def Nearest (F : Format) (sign : Sign) (x : ℚ) (u : UnpackedFloat) : Prop :=
  ∃ (r : Nat) (t : Int), HasExponent F x t ∧ IsNearest r (x / 2 ^ t) ∧ Denotes F sign u (r * 2 ^ t)

/-- A number of the format that lies on the same side of every number of the format as `x`. -/
def Rounded (F : Format) (sign : Sign) (x : ℚ) (u : UnpackedFloat) : Prop :=
  ∃ y, Denotes F sign u y ∧
    ∀ bound, InFormat F bound → (x ≤ bound → y ≤ bound) ∧ (bound ≤ x → bound ≤ y)

section

variable {F : Format} {sign : Sign} {u v : UnpackedFloat} {x y : ℚ} {m : Nat} {e t t' : Int}

theorem Rounded.denotes (h : Rounded F sign x u) (hx : InFormat F x) : Denotes F sign u x := by
  obtain ⟨y, hy, hbounds⟩ := h
  obtain ⟨hupper, hlower⟩ := hbounds x hx
  rwa [le_antisymm (hlower (le_refl x)) (hupper (le_refl x))]

theorem two_pow_mantissaBits (F : Format) (t : Int) :
    (2 : ℚ) ^ F.mantissaBits * 2 ^ t = 2 ^ F.mantissaBitsWithoutImplicit * 2 ^ (t + 1) := by
  have hbits : F.mantissaBits = F.mantissaBitsWithoutImplicit + 1 := by
    unfold Format.mantissaBits
    omega
  rw [hbits, zpow_add_one₀ (by norm_num)]
  ring

theorem two_pow_mantissaBits_le (F : Format) (h : t < t') :
    (2 : ℚ) ^ F.mantissaBits * 2 ^ t ≤ 2 ^ F.mantissaBitsWithoutImplicit * 2 ^ t' := by
  rw [two_pow_mantissaBits]
  exact mul_le_mul_of_nonneg_left (zpow_le_zpow_right₀ (by norm_num) h) (by positivity)

theorem HasExponent.not_lt (h : HasExponent F x t) (h' : HasExponent F x t') : ¬t < t' := by
  intro hlt
  have hbelow : x < 2 ^ F.mantissaBitsWithoutImplicit * 2 ^ t' :=
    h.lt.trans_le (two_pow_mantissaBits_le F hlt)
  exact hbelow.not_ge (h'.full (lt_of_le_of_lt h.least hlt))

theorem HasExponent.unique (h : HasExponent F x t) (h' : HasExponent F x t') : t = t' :=
  le_antisymm (le_of_not_gt (h'.not_lt h)) (le_of_not_gt (h.not_lt h'))

theorem hasExponent_self (hbits : m < 2 ^ F.mantissaBits) (hmin : F.minExponent ≤ e)
    (hfull : 2 ^ F.mantissaBitsWithoutImplicit ≤ m ∨ e = F.minExponent) :
    HasExponent F (m * 2 ^ e) e := by
  refine ⟨hmin, ?_, fun hlt => ?_⟩
  · exact mul_lt_mul_of_pos_right (by exact_mod_cast hbits) (by positivity)
  · have hm : 2 ^ F.mantissaBitsWithoutImplicit ≤ m := hfull.resolve_right hlt.ne'
    exact mul_le_mul_of_nonneg_right (by exact_mod_cast hm) (by positivity)

theorem Denotes.unique (h : Denotes F sign u x) (h' : Denotes F sign v x) : u = v := by
  generalize hy : x = y at h'
  cases h with
  | zero =>
    cases h' with
    | zero => rfl
    | finite hm' => exact absurd hy (mul_pos (Nat.cast_pos.mpr hm') (zpow_pos two_pos _)).ne
  | finite hm hbits hmin hfull =>
    cases h' with
    | zero => exact absurd hy (mul_pos (Nat.cast_pos.mpr hm) (zpow_pos two_pos _)).ne'
    | finite hm' hbits' hmin' hfull' =>
      have hexponent := hasExponent_self hbits hmin hfull
      have hexponent' := hasExponent_self hbits' hmin' hfull'
      rw [hy] at hexponent
      obtain rfl := hexponent.unique hexponent'
      have hcast := mul_right_cancel₀ (by positivity) hy
      congr 1
      exact_mod_cast hcast

theorem Denotes.nearest (h : Denotes F sign u x) : Nearest F sign x u := by
  cases h with
  | zero =>
    refine ⟨0, F.minExponent, ⟨le_refl _, by positivity, fun h => absurd h (lt_irrefl _)⟩, ?_, ?_⟩
    · rw [zero_div]
      exact isNearest_of_lt (by norm_num) (by norm_num)
    · rw [Nat.cast_zero, zero_mul]
      exact .zero
  | @finite m e hm hbits hmin hfull =>
    refine ⟨m, e, hasExponent_self hbits hmin hfull, ?_, .finite hm hbits hmin hfull⟩
    rw [mul_div_cancel_right₀ _ (by positivity)]
    exact isNearest_of_lt (by linarith) (by linarith)

theorem le_or_lt_of_inFormat {c : Nat} {q t : Int} (hc : c < 2 ^ F.mantissaBits)
    (hq : F.minExponent ≤ q) :
    t ≤ q ∨ F.minExponent < t ∧
      (c : ℚ) * 2 ^ q < 2 ^ F.mantissaBitsWithoutImplicit * 2 ^ t := by
  by_cases hle : t ≤ q
  · exact .inl hle
  · have hlt : q < t := not_le.mp hle
    have hbits : (c : ℚ) * 2 ^ q < 2 ^ F.mantissaBits * 2 ^ q :=
      mul_lt_mul_of_pos_right (by exact_mod_cast hc) (by positivity)
    exact .inr ⟨lt_of_le_of_lt hq hlt, hbits.trans_le (two_pow_mantissaBits_le F hlt)⟩

theorem Nearest.rounded (h : Nearest F sign x u) : Rounded F sign x u := by
  obtain ⟨r, t, hexponent, hnearest, hdenotes⟩ := h
  have hpos : (0 : ℚ) < 2 ^ t := by positivity
  refine ⟨_, hdenotes, ?_⟩
  rintro bound ⟨c, q, hc, hq, rfl⟩
  rcases le_or_lt_of_inFormat (t := t) hc hq with hgrid | ⟨hleast, hsmall⟩
  · -- The bound is a multiple of the last bit.
    obtain ⟨j, rfl⟩ : ∃ j : Nat, q = t + j := ⟨(q - t).toNat, by omega⟩
    have hbound : (c : ℚ) * 2 ^ (t + j) = (c * 2 ^ j : Nat) * 2 ^ t := by
      rw [zpow_add₀ (by norm_num), zpow_natCast]
      push_cast
      ring
    rw [hbound, mul_le_mul_iff_left₀ hpos, mul_le_mul_iff_left₀ hpos, Nat.cast_le, Nat.cast_le,
      ← div_le_iff₀ hpos, ← le_div_iff₀ hpos]
    exact ⟨hnearest.le, hnearest.ge⟩
  · -- The bound is smaller than the number and than the nearest one.
    have hfull := hexponent.full hleast
    have hr : 2 ^ F.mantissaBitsWithoutImplicit ≤ r := by
      refine hnearest.ge ((le_div_iff₀ hpos).mpr ?_)
      exact_mod_cast hfull
    have hle : (2 : ℚ) ^ F.mantissaBitsWithoutImplicit * 2 ^ t ≤ r * 2 ^ t :=
      mul_le_mul_of_nonneg_right (by exact_mod_cast hr) hpos.le
    exact ⟨fun hx => absurd (hfull.trans hx) (not_le.mpr hsmall), fun _ => hsmall.le.trans hle⟩

end

/-! ## What surrounds a number -/

/-- `x` is nearer to the number `m * 2 ^ e` of the format than to its neighbours. Below a power of
two the neighbour is half as far as above. -/
structure Surrounds (F : Format) (m : Nat) (e : Int) (x : ℚ) : Prop where
  pos : 0 < m
  bits : m < 2 ^ F.mantissaBits
  least : F.minExponent ≤ e
  full : 2 ^ F.mantissaBitsWithoutImplicit ≤ m ∨ e = F.minExponent
  nearest : IsNearest m (x / 2 ^ e)
  below : m = 2 ^ F.mantissaBitsWithoutImplicit → F.minExponent < e → (m - 1 / 4) * 2 ^ e ≤ x

section

variable {F : Format} {sign : Sign} {u : UnpackedFloat} {x : ℚ} {m : Nat} {e t : Int}

theorem Surrounds.exponent_le (h : Surrounds F m e x) (hx : HasExponent F x t) : t ≤ e := by
  by_contra hgt
  -- With all bits above a larger last one, `x` is not below the next number.
  have hpos : (0 : ℚ) < 2 ^ e := by positivity
  have hupper : x ≤ (m + 1 / 2) * 2 ^ e := (div_le_iff₀ hpos).mp h.nearest.upper
  have hm : ((m : ℚ) + 1) ≤ 2 ^ F.mantissaBits := by exact_mod_cast h.bits
  have hnext : ((m : ℚ) + 1) * 2 ^ e ≤ x :=
    calc ((m : ℚ) + 1) * 2 ^ e ≤ 2 ^ F.mantissaBits * 2 ^ e :=
          mul_le_mul_of_nonneg_right hm hpos.le
      _ ≤ 2 ^ F.mantissaBitsWithoutImplicit * 2 ^ t := two_pow_mantissaBits_le F (not_le.mp hgt)
      _ ≤ x := hx.full (lt_of_le_of_lt h.least (not_le.mp hgt))
  linarith

theorem Surrounds.eq_two_pow (h : Surrounds F m e x) (hx : HasExponent F x t) (hlt : t < e) :
    m = 2 ^ F.mantissaBitsWithoutImplicit := by
  have hpos : (0 : ℚ) < 2 ^ e := by positivity
  have hlower : (m - 1 / 2) * 2 ^ e ≤ x := (le_div_iff₀ hpos).mp h.nearest.lower
  have hscaled : (m - 1 / 2 : ℚ) * 2 ^ e < 2 ^ F.mantissaBitsWithoutImplicit * 2 ^ e :=
    calc (m - 1 / 2 : ℚ) * 2 ^ e ≤ x := hlower
      _ < 2 ^ F.mantissaBits * 2 ^ t := hx.lt
      _ ≤ 2 ^ F.mantissaBitsWithoutImplicit * 2 ^ e := two_pow_mantissaBits_le F hlt
  have hless := (mul_lt_mul_iff_left₀ hpos).mp hscaled
  have hcast : (m : ℚ) < (2 ^ F.mantissaBitsWithoutImplicit + 1 : Nat) := by
    push_cast
    linarith
  refine le_antisymm (Nat.lt_succ_iff.mp (by exact_mod_cast hcast)) (h.full.resolve_right ?_)
  exact (lt_of_le_of_lt hx.least hlt).ne'

/-- The smaller last bit is half as large, and `x` is rounded up to the power of two. -/
theorem Surrounds.rounds_up (h : Surrounds F m e x) (hx : HasExponent F x t) (hlt : t < e) :
    e = t + 1 ∧ IsNearest (2 * m) (x / 2 ^ t) := by
  have hpow := h.eq_two_pow hx hlt
  have hlower := h.below hpow (lt_of_le_of_lt hx.least hlt)
  have hupper : x < m * 2 ^ (t + 1) := by
    have hvalue : (m : ℚ) = 2 ^ F.mantissaBitsWithoutImplicit := by exact_mod_cast hpow
    rw [hvalue, ← two_pow_mantissaBits]
    exact hx.lt
  have hone : (1 : ℚ) ≤ m := by exact_mod_cast h.pos
  have hpos : (0 : ℚ) < 2 ^ t := by positivity
  have he : e = t + 1 := by
    refine le_antisymm (not_lt.mp fun hmore => ?_) hlt
    have hle : (2 : ℚ) ^ (t + 1) * 2 ≤ 2 ^ e := by
      rw [← zpow_add_one₀ (by norm_num)]
      exact zpow_le_zpow_right₀ (by norm_num) hmore
    have hhalf : (m : ℚ) * 2 ^ (t + 1) * 2 ≤ m * 2 ^ e := by
      rw [mul_assoc]
      exact mul_le_mul_of_nonneg_left hle (by positivity)
    have hmany : 0 ≤ ((m : ℚ) - 1) * 2 ^ e := mul_nonneg (by linarith) (by positivity)
    have hpos' : (0 : ℚ) < 2 ^ e := by positivity
    linarith
  refine ⟨he, ?_⟩
  rw [he, zpow_add_one₀ (by norm_num)] at hlower
  rw [zpow_add_one₀ (by norm_num)] at hupper
  refine isNearest_of_even (by omega) ?_ ?_
  · rw [le_div_iff₀ hpos]
    push_cast
    linarith
  · rw [div_le_iff₀ hpos]
    push_cast
    linarith

theorem Nearest.eq_finite (h : Nearest F sign x u) (hx : Surrounds F m e x) :
    u = .finite sign m e hx.pos := by
  obtain ⟨r, t, hexponent, hr, hdenotes⟩ := h
  suffices hvalue : (r : ℚ) * 2 ^ t = m * 2 ^ e by
    rw [hvalue] at hdenotes
    exact hdenotes.unique (.finite hx.pos hx.bits hx.least hx.full)
  rcases (hx.exponent_le hexponent).lt_or_eq with hlt | rfl
  · obtain ⟨rfl, htwice⟩ := hx.rounds_up hexponent hlt
    rw [hr.unique htwice, zpow_add_one₀ (by norm_num)]
    push_cast
    ring
  · rw [hr.unique hx.nearest]

end

end ClassStyle
