import ClassStyle.Number.Exact
import ClassStyle.Proofs.Rounding

/-!
# Magnitudes in single precision

A number that is not too large for single precision stays finite when it is rounded to it, and when
a percentage is taken as a fraction and back (`isFinite_percent`).
-/

namespace ClassStyle

open Float.Model hiding pack unpack add mul div
open UnpackedFloat

/-! ## Magnitudes -/

/-- The magnitude of a finite number. -/
def magnitude? : UnpackedFloat → Option ℚ
  | .zero _ => some 0
  | .finite _ m e _ => some (m * 2 ^ e)
  | _ => none

section

variable {F : Format} {s : UnpackedFloat.Sign} {u : UnpackedFloat} {x bound : ℚ}

theorem magnitude?_of_denotes (h : Denotes F s u x) : magnitude? u = some x := by
  cases h <;> rfl

theorem isFinite_of_magnitude? (h : magnitude? u = some x) : u.isFinite = true := by
  cases u <;> first | rfl | cases h

theorem isFinite_of_denotes (h : Denotes F s u x) : u.isFinite = true := by
  cases h <;> rfl

theorem Rounded.unpack_pack_of_le (h : Rounded F s x u) (hF : 2 ≤ F.exponentBits)
    (hbound : InFormat F bound) (hle : x ≤ bound) (hlt : bound < 2 ^ 2 ^ (F.exponentBits - 1)) :
    ∃ y, y ≤ bound ∧ Denotes F s u y ∧ unpack F (pack F u) = u := by
  obtain ⟨y, hy, hbounds⟩ := h
  have hyle := (hbounds bound hbound).1 hle
  refine ⟨y, hyle, hy, (unpack_pack hF hy).resolve_right ?_⟩
  rintro ⟨hlarge, -⟩
  exact absurd (hlarge.trans hyle) (not_le.mpr hlt)

end

/-! ## Single precision -/

/-- The number in single precision. -/
def narrowed : UnpackedFloat → UnpackedFloat
  | .finite sign m e _ => round .binary32 sign m e
  | other => other

theorem unpack_narrow (x : Float) :
    (narrow x).toModel.unpack = unpack .binary32 (pack .binary32 (narrowed x.toModel.unpack)) :=
  rfl

theorem nearest_narrowed {F : Format} {s : UnpackedFloat.Sign} {u : UnpackedFloat} {x : ℚ}
    (h : Denotes F s u x) : Nearest .binary32 s x (narrowed u) := by
  cases h with
  | zero => exact Denotes.zero.nearest
  | finite hm => exact nearest_round .binary32 s hm _

/-! ## Percentages -/

theorem unpack_hundredth (x : Float) :
    (x / 100).toModel.unpack = unpack .binary64 (pack .binary64
      (div .binary64 x.toModel.unpack (.finite .positive (100 * 2 ^ 46) (-46) (by decide)))) := by
  have h : (100 : Float).toModel.unpack = .finite .positive (100 * 2 ^ 46) (-46) (by decide) := rfl
  rw [← h]
  rfl

theorem unpack_hundredfold (x : Float32) :
    (x * 100).toModel.unpack = unpack .binary32 (pack .binary32
      (mul .binary32 x.toModel.unpack (.finite .positive (100 * 2 ^ 17) (-17) (by decide)))) := by
  have h : (100 : Float32).toModel.unpack = .finite .positive (100 * 2 ^ 17) (-17) (by decide) :=
    rfl
  rw [← h]
  rfl

theorem inFormat_large : InFormat .binary32 (100 * 2 ^ 120) :=
  ⟨100, 120, by decide, by decide, by norm_num⟩

theorem le_of_magnitude? {s : UnpackedFloat.Sign} {m : Nat} {e : Int} (hm : 0 < m) {x : ℚ}
    (h : magnitude? (unpack .binary32 (pack .binary32 (round .binary32 s m e))) = some x)
    (hx : x < 10 ^ 38) : (m : ℚ) * 2 ^ e ≤ 100 * 2 ^ 120 := by
  obtain ⟨y, hy, hbounds⟩ := (nearest_round .binary32 s hm e).rounded
  refine le_of_not_gt fun hgt => ?_
  have hlarge := (hbounds _ inFormat_large).2 hgt.le
  rcases unpack_pack (by decide) hy with hunpack | ⟨-, hunpack⟩
  · rw [hunpack, magnitude?_of_denotes hy] at h
    obtain rfl := Option.some.inj h
    norm_num at hlarge hx
    linarith
  · rw [hunpack] at h
    cases h

theorem isFinite_percent {d : Float} {x : ℚ}
    (h : magnitude? (narrow d).toModel.unpack = some x) (hx : x < 10 ^ 38) :
    (narrow (d / 100) * 100).toModel.unpack.isFinite = true := by
  rw [unpack_narrow] at h
  rw [unpack_hundredfold, unpack_narrow, unpack_hundredth]
  generalize d.toModel.unpack = u at h ⊢
  cases u with
  | notANumber => cases h
  | infinity s =>
    have hkept : unpack .binary32 (pack .binary32 (narrowed (.infinity s))) = .infinity s :=
      unpack_infinity _ s
    rw [hkept] at h
    cases h
  | zero s => cases s <;> rfl
  | finite s m e hm =>
    have hle := le_of_magnitude? hm h hx
    have hdiv : Rounded .binary64 (s / .positive)
        ((m : ℚ) * 2 ^ e / (((100 * 2 ^ 46 : Nat) : ℚ) * 2 ^ (-46 : Int))) _ :=
      (nearest_quotient e (-46) hm (by decide)).rounded
    have hhundredth :
        (m : ℚ) * 2 ^ e / (((100 * 2 ^ 46 : Nat) : ℚ) * 2 ^ (-46 : Int)) ≤ 2 ^ 120 := by
      norm_num
      linarith
    have hdouble : InFormat .binary64 (2 ^ 120) := ⟨1, 120, by decide, by decide, by norm_num⟩
    have hsingle : InFormat .binary32 (2 ^ 120) := ⟨1, 120, by decide, by decide, by norm_num⟩
    obtain ⟨y₁, hy₁, hdenotes₁, hunpack₁⟩ :=
      hdiv.unpack_pack_of_le (by decide) hdouble hhundredth
        (pow_lt_pow_right₀ (by norm_num) (by decide))
    obtain ⟨y₂, hy₂, hdenotes₂, hunpack₂⟩ :=
      (nearest_narrowed hdenotes₁).rounded.unpack_pack_of_le (by decide) hsingle hy₁
        (pow_lt_pow_right₀ (by norm_num) (by decide))
    have hhundred : Denotes .binary32 .positive
        (.finite .positive (100 * 2 ^ 17) (-17) (by decide))
        (((100 * 2 ^ 17 : Nat) : ℚ) * 2 ^ (-17 : Int)) :=
      .finite _ (by decide) (by decide) (.inl (by decide))
    obtain ⟨y₃, -, hdenotes₃, hunpack₃⟩ :=
      (nearest_mul hdenotes₂ hhundred).rounded.unpack_pack_of_le (by decide) inFormat_large
        (by norm_num; linarith) (by norm_num [Format.binary32])
    rw [hunpack₁, hunpack₂, hunpack₃]
    exact isFinite_of_denotes hdenotes₃

end ClassStyle
