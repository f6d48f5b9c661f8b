import ClassStyle.Proofs.Decimals

/-!
# Printed numbers are read back

The shortest decimal of a number is nearer to it than to its neighbours, and a decimal is read as
the nearest number. So each number of single precision is read back from its text
(`readSingle?_writeSingle`).
-/

namespace ClassStyle

open Float.Model hiding pack unpack add sub mul div neg
open UnpackedFloat
open Text

section

variable {F : Format} {s : UnpackedFloat.Sign} {u : UnpackedFloat} {m : Nat} {e : Int}
  {hm : 0 < m} {x y : ℚ}

theorem Shortest.Dyadic.Holds.surrounds (h : (ofFinite F m e).Holds y)
    (hdenotes : Denotes F s (.finite s m e hm) x) : Surrounds F m e y := by
  have hlower : (m : ℚ) - (ofFinite F m e).gapBelow ≤ y / 2 ^ e := h.lower
  have hupper : y / 2 ^ e ≤ (m : ℚ) + 1 / 2 := h.upper
  have hodd : m % 2 = 1 → (m : ℚ) - (ofFinite F m e).gapBelow < y / 2 ^ e ∧
      y / 2 ^ e < (m : ℚ) + 1 / 2 := h.odd
  have hgap : (ofFinite F m e).gapBelow ≤ 1 / 2 := by
    unfold gapBelow
    split <;> norm_num
  have hnearest : IsNearest m (y / 2 ^ e) :=
    ⟨by linarith, hupper, fun h => ⟨by linarith [(hodd h).1], (hodd h).2⟩⟩
  cases hdenotes with
  | finite _ hbits hmin hfull =>
    refine ⟨hm, hbits, hmin, hfull, hnearest, fun hpow hlt => ?_⟩
    have hquarter : (ofFinite F m e).gapBelow = 1 / 4 := if_pos (by simp [ofFinite, hpow, hlt])
    rw [hquarter] at hlower
    exact (le_div_iff₀ (by positivity)).mp hlower

theorem Nearest.unpack_pack_eq (h : Nearest F .positive y u) (hF : 2 ≤ F.exponentBits)
    (hy : Surrounds F m e y) (hbound : (m : ℚ) * 2 ^ e < 2 ^ 2 ^ (F.exponentBits - 1)) :
    unpack F (pack F u) = .finite .positive m e hy.pos := by
  rw [h.eq_finite hy]
  have hdenotes : Denotes F .positive (.finite .positive m e hy.pos) (m * 2 ^ e) :=
    .finite hy.pos hy.bits hy.least hy.full
  rcases unpack_pack hF hdenotes with hunpack | ⟨hlarge, -⟩
  · exact hunpack
  · exact absurd hlarge (not_le.mpr hbound)

end

theorem single_ext {x y : Float32} (h : x.toModel.unpack = y.toModel.unpack) : x = y := by
  obtain ⟨⟨⟨b⟩, hb⟩⟩ := x
  obtain ⟨⟨⟨c⟩, hc⟩⟩ := y
  obtain rfl : b = c := (unpack_inj_of_valid hb hc (by decide)).mp h
  rfl

theorem unpack_neg (x : Float32) : (-x).toModel.unpack =
    unpack .binary32 (pack .binary32 (UnpackedFloat.neg x.toModel.unpack)) := rfl

theorem exists_readSingle? (x : Float32) :
    ∃ y, readSingle? (writeSingle x) = some y ∧ y.toModel.unpack = x.toModel.unpack := by
  have hunpack : x.toModel.unpack = unpack .binary32 x.toModel.toBits.toBitVec := rfl
  unfold writeSingle
  generalize x.toModel.unpack = u at hunpack ⊢
  cases u with
  | notANumber => exact ⟨_, rfl, rfl⟩
  | infinity s => cases s <;> exact ⟨_, rfl, rfl⟩
  | zero s => cases s <;> exact ⟨_, rfl, rfl⟩
  | finite s m e hm =>
    obtain ⟨n, hn, htext, hsign, hvalue⟩ := exists_isPlain_decimal s
      (Shortest.Dyadic.ofFinite .binary32 m e).shortest.1
      (Shortest.Dyadic.ofFinite .binary32 m e).shortest.2
    have hdenotes := (unpack_finite (by decide) hunpack.symm).1
    rw [← hunpack] at hdenotes
    have hsurrounds := (Shortest.holds_shortest _).surrounds hdenotes
    rw [← hvalue] at hsurrounds
    have hbound : (m : ℚ) * 2 ^ e < 2 ^ 2 ^ (Format.binary32.exponentBits - 1) :=
      lt_of_lt_of_le (mul_lt_mul_of_pos_right (lt_add_one _) (by positivity))
        (succ_mul_le (by decide) hunpack.symm)
    obtain ⟨u, hnearest, hread⟩ := exists_nearest_single
      (decimalValue (n.whole ++ n.fractionDigits)) n.fractionDigits.length
    have hmagnitude := hread.trans (hnearest.unpack_pack_eq (by decide) hsurrounds hbound)
    have hwritten : writeNumber .binary32 (.finite s m e hm) = n.source := htext
    refine ⟨(Decimal.ofNumeral n).toSingle, ?_, ?_⟩
    · rw [hwritten, readSingle?, Decimal.ofText?_plain hn, Option.map_some]
    · rw [Decimal.ofNumeral_plain hn, hsign]
      cases s with
      | positive => exact hmagnitude
      | negative =>
        -- The magnitude is rounded first, and its sign is set in the bits of the result.
        show (-(Float32.ofScientific _ _ _)).toModel.unpack = _
        rw [unpack_neg, hmagnitude]
        show unpack .binary32 (pack .binary32 (.finite .negative m e hm)) = _
        rw [hunpack, pack_unpack_of_valid x.toModel.valid]

/-- Each number of single precision is read back from its text. -/
theorem readSingle?_writeSingle (x : Float32) : readSingle? (writeSingle x) = some x := by
  obtain ⟨y, hread, hunpack⟩ := exists_readSingle? x
  rw [hread, single_ext hunpack]

end ClassStyle
