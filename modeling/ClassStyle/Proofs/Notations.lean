import Mathlib.Algebra.Order.Floor.Semiring
import Mathlib.Data.Rat.Floor
import ClassStyle.Proofs.Magnitudes
import ClassStyle.Proofs.Tokens

/-!
# Notations of colors

A text is read as a color in two notations alone: hexadecimal digits behind `#`, and a list that
starts with three channels (`Color.read?_notations`). A channel is a decimal numeral, or one of
the words for what has no digits.
-/

namespace ClassStyle

open Text Float.Model

/-! ## Bytes -/

theorem roundScaled_eq_floor (m : Nat) (e : Int) :
    roundScaled m e = ⌊(m : ℚ) * 2 ^ e + 1 / 2⌋₊ := by
  unfold roundScaled
  split
  · next h =>
    have hwhole : (m : ℚ) * 2 ^ e = (m * 2 ^ e.toNat : Nat) := by
      rw [← Int.toNat_of_nonneg h, zpow_natCast, Int.toNat_natCast]
      push_cast
      rfl
    have hhalf : ⌊(1 / 2 : ℚ)⌋₊ = 0 := by norm_num
    rw [hwhole, add_comm, Nat.floor_add_natCast (by norm_num), hhalf, Nat.zero_add]
  · next h =>
    have hpow : (2 : ℚ) ^ e = 1 / 2 ^ e.natAbs := by
      rw [show e = -(e.natAbs : Int) by omega, zpow_neg, zpow_natCast, Int.natAbs_neg,
        Int.natAbs_natCast, one_div]
    have hhalf : (m : ℚ) * 2 ^ e + 1 / 2 =
        ((2 * m + 2 ^ e.natAbs : Nat) : ℚ) / ((2 ^ (e.natAbs + 1) : Nat) : ℚ) := by
      rw [hpow]
      push_cast
      field_simp
      ring
    rw [hhalf, Nat.floor_div_eq_div]

/-- The value of a finite number. -/
def value? : UnpackedFloat → Option ℚ
  | .zero _ => some 0
  | .finite .positive m e _ => some (m * 2 ^ e)
  | .finite .negative m e _ => some (-(m * 2 ^ e))
  | _ => none

/-- The byte of a number: the integer next to it, limited to 0 to 255. What is no number counts
as 0. -/
inductive IsByte : UnpackedFloat → UInt8 → Prop
  | finite {u : UnpackedFloat} {v : ℚ} {b : UInt8} :
      value? u = some v → b.toNat = min 255 ⌊v + 1 / 2⌋₊ → IsByte u b
  | infinite : IsByte (.infinity .positive) 255
  | negativeInfinite : IsByte (.infinity .negative) 0
  | notANumber : IsByte .notANumber 0

theorem toNat_nearestByte {x : Float} {v : ℚ} (h : value? x.toModel.unpack = some v) :
    (nearestByte x).toNat = min 255 ⌊v + 1 / 2⌋₊ := by
  have hlow : ∀ {y : ℚ}, 0 ≤ y → min 255 ⌊-y + 1 / 2⌋₊ = 0 := by
    intro y hy
    have hfloor : ⌊-y + 1 / 2⌋₊ = 0 := Nat.floor_eq_zero.mpr (by linarith)
    rw [hfloor, Nat.min_zero]
  unfold nearestByte
  cases hx : x.toModel.unpack with
  | notANumber => rw [hx] at h; cases h
  | infinity s => rw [hx] at h; cases h
  | zero s =>
    rw [hx] at h
    obtain rfl := Option.some.inj h
    have hzero := hlow (le_refl (0 : ℚ))
    rw [neg_zero] at hzero
    rw [hzero]
    rfl
  | finite s m e hm =>
    rw [hx] at h
    cases s with
    | positive =>
      obtain rfl := Option.some.inj h
      rw [← roundScaled_eq_floor, UInt8.toNat_ofNat_of_lt']
      exact Nat.lt_of_le_of_lt (Nat.min_le_left _ _) (by decide)
    | negative =>
      obtain rfl := Option.some.inj h
      rw [hlow (by positivity)]
      rfl

theorem isByte_iff {x : Float} {b : UInt8} : IsByte x.toModel.unpack b ↔ nearestByte x = b := by
  have hbyte : IsByte x.toModel.unpack (nearestByte x) := by
    cases hx : x.toModel.unpack with
    | notANumber => unfold nearestByte; rw [hx]; exact .notANumber
    | infinity s =>
      unfold nearestByte
      rw [hx]
      cases s with
      | positive => exact .infinite
      | negative => exact .negativeInfinite
    | zero s => exact .finite rfl (toNat_nearestByte (by rw [hx]; rfl))
    | finite s m e hm =>
      cases s <;> exact .finite rfl (toNat_nearestByte (by rw [hx]; rfl))
  constructor
  · intro h
    generalize hu : x.toModel.unpack = u at h
    cases h with
    | finite hv hb =>
      subst hu
      exact UInt8.toNat_inj.mp ((toNat_nearestByte hv).trans hb.symm)
    | infinite | negativeInfinite | notANumber => unfold nearestByte; rw [hu]
  · rintro rfl
    exact hbyte

/-! ## Numbers -/

/-- The texts of numbers: decimal numerals, and words in any case for what has no digits. -/
inductive IsNumber : List Char → Decimal → Prop
  | numeral {n : Numeral} : n.IsDecimal → IsNumber n.source (.ofNumeral n)
  | infinite {sign : Option Sign} {word : List Char} :
      lower word = "inf".toList ∨ lower word = "infinity".toList →
      IsNumber (Sign.source sign ++ word) (.infinite (Sign.isMinus sign))
  | nan {sign : Option Sign} {word : List Char} :
      lower word = "nan".toList → IsNumber (Sign.source sign ++ word) .nan

theorem scan_word {word : List Char}
    (h : (lower word).head?.any (fun c => c = 'i' ∨ c = 'n') = true) (sign : Option Sign) :
    Sign.scan (Sign.source sign ++ word) = (sign, word) ∧
      Numeral.scan true (Sign.source sign ++ word) = none := by
  obtain ⟨c, word, rfl⟩ : ∃ c w, word = c :: w := by
    cases word with
    | nil => cases h
    | cons c word => exact ⟨c, word, rfl⟩
  have hlower : lowerChar c = 'i' ∨ lowerChar c = 'n' := by simpa [lower] using h
  have hc : isDigit c = false ∧ c ≠ '+' ∧ c ≠ '-' ∧ c ≠ '.' := by
    have hascii : c.toNat < 128 := by
      by_cases hupper : 'A' ≤ c ∧ c ≤ 'Z'
      · exact Nat.lt_of_le_of_lt hupper.2 (by decide)
      · rw [lowerChar, if_neg hupper] at hlower
        rcases hlower with rfl | rfl <;> decide
    refine forall_ascii (p := fun c => lowerChar c = 'i' ∨ lowerChar c = 'n' →
      isDigit c = false ∧ c ≠ '+' ∧ c ≠ '-' ∧ c ≠ '.') (by decide) hascii hlower
  obtain ⟨hdigit, hplus, hminus, hdot⟩ := hc
  have hsign : Sign.scan (Sign.source sign ++ c :: word) = (sign, c :: word) := by
    refine Numeral.scan_sign_body sign fun d hd => ?_
    obtain rfl := Option.mem_some_iff.mp hd
    exact ⟨hplus, hminus⟩
  refine ⟨hsign, ?_⟩
  simp [Numeral.scan, hsign, hdigit, Numeral.scanFraction, hdot]

theorem Decimal.ofText?_eq_some_iff {s : List Char} {d : Decimal} :
    ofText? s = some d ↔ IsNumber s d := by
  constructor
  · intro h
    unfold ofText? at h
    split at h
    · next n hscan =>
      obtain rfl := Option.some.inj h
      have hsource := Numeral.source_append_of_scan hscan
      rw [List.append_nil] at hsource
      exact hsource ▸ .numeral (Numeral.isDecimal_of_scan hscan)
    · cases h
    · unfold ofWord? at h
      simp only at h
      rw [← Sign.source_scan_append s]
      split at h
      · next hword =>
        obtain rfl := Option.some.inj h
        exact .infinite hword
      · split at h
        · next hword =>
          obtain rfl := Option.some.inj h
          exact .nan hword
        · cases h
  · intro h
    cases h with
    | @numeral n hn =>
      have hends : EndsNumeral [] := endsNumeral_of_head (by simp)
      have hscan : Numeral.scan true (n.source ++ []) = some (n, []) :=
        Numeral.scan_decimal_append hn hends fun _ _ => .inr rfl
      rw [List.append_nil] at hscan
      exact ofText?_source hscan
    | @infinite sign word hword =>
      have hhead : (lower word).head?.any (fun c => c = 'i' ∨ c = 'n') = true := by
        rcases hword with hword | hword <;> rw [hword] <;> rfl
      obtain ⟨hsign, hscan⟩ := scan_word hhead sign
      rw [ofText?, hscan, ofWord?, hsign]
      exact if_pos hword
    | @nan sign word hword =>
      obtain ⟨hsign, hscan⟩ := scan_word (by rw [hword]; rfl) sign
      rw [ofText?, hscan, ofWord?, hsign]
      simp only [hword]
      rfl

/-! ## Hexadecimal digits -/

namespace Color

/-- The color that hexadecimal digits stand for: each of three digits is doubled, or there are two
digits for each channel. -/
inductive HexNotation : List Char → Color → Prop
  | digits {r g b : Char} {x y z : Nat} :
      hexDigit? r = some x → hexDigit? g = some y → hexDigit? b = some z →
      HexNotation ['#', r, g, b] ⟨.ofNat (16 * x + x), .ofNat (16 * y + y), .ofNat (16 * z + z)⟩
  | pairs {r₁ r₂ g₁ g₂ b₁ b₂ : Char} {x₁ x₂ y₁ y₂ z₁ z₂ : Nat} :
      hexDigit? r₁ = some x₁ → hexDigit? r₂ = some x₂ → hexDigit? g₁ = some y₁ →
      hexDigit? g₂ = some y₂ → hexDigit? b₁ = some z₁ → hexDigit? b₂ = some z₂ →
      HexNotation ['#', r₁, r₂, g₁, g₂, b₁, b₂]
        ⟨.ofNat (16 * x₁ + x₂), .ofNat (16 * y₁ + y₂), .ofNat (16 * z₁ + z₂)⟩

/-- Six digits, but for a plus sign where the first digit of a pair is to stand. -/
def HasSignedPair (s : List Char) : Prop :=
  ∃ r₁ r₂ g₁ g₂ b₁ b₂ : Char, s = ['#', r₁, r₂, g₁, g₂, b₁, b₂] ∧ '+' ∈ [r₁, g₁, b₁] ∧
    ∀ pair ∈ [(r₁, r₂), (g₁, g₂), (b₁, b₂)],
      (pair.1 = '+' ∨ isHexDigit pair.1 = true) ∧ isHexDigit pair.2 = true

theorem doubledDigit?_eq_some_iff {c : Char} {b : UInt8} :
    doubledDigit? c = some b ↔ ∃ d, hexDigit? c = some d ∧ .ofNat (16 * d + d) = b := by
  unfold doubledDigit?
  rw [Option.map_eq_some_iff]
  have hdouble : ∀ d, 17 * d = 16 * d + d := fun d => by omega
  simp only [hdouble]

theorem digitPair?_eq_some_iff {first second : Char} (h : first ≠ '+') {b : UInt8} :
    digitPair? first second = some b ↔
      ∃ high low, hexDigit? first = some high ∧ hexDigit? second = some low ∧
        .ofNat (16 * high + low) = b := by
  unfold digitPair?
  cases hexDigit? second with
  | none => simp
  | some low => simp [h]

theorem isHexDigit_of_digitPair? {first second : Char} {b : UInt8}
    (h : digitPair? first second = some b) :
    (first = '+' ∨ isHexDigit first = true) ∧ isHexDigit second = true := by
  unfold digitPair? at h
  unfold isHexDigit
  cases hsecond : hexDigit? second with
  | none => simp [hsecond] at h
  | some low =>
    refine ⟨or_iff_not_imp_left.mpr fun hplus => ?_, rfl⟩
    rw [hsecond] at h
    simp only [if_neg hplus] at h
    obtain ⟨high, hfirst, -⟩ := Option.map_eq_some_iff.mp h
    rw [hfirst]
    rfl

theorem ofHex?_eq_some_iff {s : List Char} (h : ¬HasSignedPair (trim s)) {c : Color} :
    ofHex? s = some c ↔ HexNotation (trim s) c := by
  unfold ofHex?
  generalize trim s = t at h ⊢
  split
  · next r g b =>
    simp only [Option.bind_eq_bind, Option.bind_eq_some_iff, doubledDigit?_eq_some_iff,
      Option.some.injEq]
    constructor
    · rintro ⟨_, ⟨x, hx, rfl⟩, _, ⟨y, hy, rfl⟩, _, ⟨z, hz, rfl⟩, rfl⟩
      exact .digits hx hy hz
    · rintro (⟨hx, hy, hz⟩ | _)
      exact ⟨_, ⟨_, hx, rfl⟩, _, ⟨_, hy, rfl⟩, _, ⟨_, hz, rfl⟩, rfl⟩
  · next r₁ r₂ g₁ g₂ b₁ b₂ =>
    simp only [Option.bind_eq_bind, Option.bind_eq_some_iff, Option.some.injEq]
    by_cases hplus : '+' ∈ [r₁, g₁, b₁]
    · refine iff_of_false ?_ ?_
      · rintro ⟨_, hr, _, hg, _, hb, -⟩
        refine h ⟨r₁, r₂, g₁, g₂, b₁, b₂, rfl, hplus, ?_⟩
        simp only [List.forall_mem_cons, List.not_mem_nil, false_implies, implies_true, and_true]
        exact ⟨isHexDigit_of_digitPair? hr, isHexDigit_of_digitPair? hg,
          isHexDigit_of_digitPair? hb⟩
      · rintro (_ | ⟨hr, -, hg, -, hb, -⟩)
        simp only [List.mem_cons, List.not_mem_nil, or_false] at hplus
        rcases hplus with rfl | rfl | rfl
        · cases hr
        · cases hg
        · cases hb
    · simp only [List.mem_cons, List.not_mem_nil, or_false, not_or] at hplus
      obtain ⟨hr, hg, hb⟩ := hplus
      simp only [digitPair?_eq_some_iff (Ne.symm hr), digitPair?_eq_some_iff (Ne.symm hg),
        digitPair?_eq_some_iff (Ne.symm hb)]
      constructor
      · rintro ⟨_, ⟨_, _, hx₁, hx₂, rfl⟩, _, ⟨_, _, hy₁, hy₂, rfl⟩, _, ⟨_, _, hz₁, hz₂, rfl⟩, rfl⟩
        exact .pairs hx₁ hx₂ hy₁ hy₂ hz₁ hz₂
      · rintro (_ | ⟨hx₁, hx₂, hy₁, hy₂, hz₁, hz₂⟩)
        exact ⟨_, ⟨_, _, hx₁, hx₂, rfl⟩, _, ⟨_, _, hy₁, hy₂, rfl⟩, _, ⟨_, _, hz₁, hz₂, rfl⟩, rfl⟩
  · next hthree hsix =>
    refine iff_of_false nofun ?_
    rintro (_ | _)
    · exact hthree _ _ _ rfl
    · exact hsix _ _ _ _ _ _ rfl

/-! ## Lists of channels -/

/-- `rgb(…)` or `rgba(…)` with a text in it. -/
inductive Wrapped (inner : List Char) : List Char → Prop
  | rgb : Wrapped inner (['r', 'g', 'b', '('] ++ (inner ++ [')']))
  | rgba : Wrapped inner (['r', 'g', 'b', 'a', '('] ++ (inner ++ [')']))

/-- What is inside a wrapper, or the text itself if there is none around it. -/
def Unwrapped (s inner : List Char) : Prop :=
  Wrapped inner s ∨ (∀ t, ¬Wrapped t s) ∧ inner = s

theorem dropFront?_eq_some_iff {part s rest : List Char} :
    dropFront? part s = some rest ↔ s = part ++ rest := by
  induction part generalizing s with
  | nil => simp [dropFront?]
  | cons p part ih =>
    cases s with
    | nil => simp [dropFront?]
    | cons c s =>
      by_cases hc : p = c
      · simp [dropFront?, hc, ih]
      · simp [dropFront?, hc, Ne.symm hc]

theorem dropClosing?_eq_some_iff {s rest : List Char} :
    dropClosing? s = some rest ↔ s = rest ++ [')'] := by
  unfold dropClosing?
  split
  · next h =>
    obtain ⟨before, rfl⟩ := List.getLast?_eq_some_iff.mp h
    simp
  · next h =>
    refine iff_of_false nofun ?_
    rintro rfl
    simp at h

theorem dropWrapper_eq_some_iff {s inner : List Char} :
    ((dropFront? ['r', 'g', 'b', '('] s).orElse
      fun _ => dropFront? ['r', 'g', 'b', 'a', '('] s).bind dropClosing? = some inner ↔
      Wrapped inner s := by
  rw [Option.bind_eq_some_iff]
  constructor
  · rintro ⟨rest, hfront, hclosing⟩
    obtain rfl := dropClosing?_eq_some_iff.mp hclosing
    cases hrgb : dropFront? ['r', 'g', 'b', '('] s with
    | some tail =>
      rw [hrgb] at hfront
      obtain rfl := Option.some.inj hfront
      exact dropFront?_eq_some_iff.mp hrgb ▸ .rgb
    | none =>
      rw [hrgb] at hfront
      exact dropFront?_eq_some_iff.mp hfront ▸ .rgba
  · rintro (_ | _)
    · exact ⟨_, by rw [dropFront?_eq_some_iff.mpr rfl]; rfl, dropClosing?_eq_some_iff.mpr rfl⟩
    · exact ⟨_, by simp [dropFront?], dropClosing?_eq_some_iff.mpr rfl⟩

theorem unwrap_eq_iff {s inner : List Char} : unwrap s = inner ↔ Unwrapped s inner := by
  unfold unwrap Unwrapped
  simp only [← dropWrapper_eq_some_iff]
  cases ((dropFront? ['r', 'g', 'b', '('] s).orElse
    fun _ => dropFront? ['r', 'g', 'b', 'a', '('] s).bind dropClosing? with
  | none => simp [eq_comm]
  | some t => simp

/-- A channel is the byte of a number. -/
def IsChannel (s : List Char) (b : UInt8) : Prop :=
  ∃ d, IsNumber s d ∧ IsByte d.toFloat.toModel.unpack b

/-- A list whose first three pieces are channels. Commas, slashes and blanks stand between the
pieces. -/
def ListNotation (s : List Char) (c : Color) : Prop :=
  ∃ inner r g b rest, Unwrapped s inner ∧ pieces isListSeparator inner = r :: g :: b :: rest ∧
    IsChannel r c.r ∧ IsChannel g c.g ∧ IsChannel b c.b

theorem channel?_eq_some_iff {s : List Char} {b : UInt8} :
    channel? s = some b ↔ IsChannel s b := by
  unfold channel? readFloat? IsChannel
  rw [Option.map_map, Option.map_eq_some_iff]
  simp only [Decimal.ofText?_eq_some_iff, isByte_iff, Function.comp_apply]

theorem ofChannels?_eq_some_iff {s : List Char} {c : Color} :
    ofChannels? s = some c ↔ ListNotation (trim s) c := by
  obtain ⟨red, green, blue⟩ := c
  unfold ofChannels? ListNotation
  simp only [← unwrap_eq_iff]
  constructor
  · intro h
    split at h
    · next r g b rest hpieces =>
      simp only [Option.bind_eq_bind, Option.bind_eq_some_iff, channel?_eq_some_iff,
        Option.some.injEq, mk.injEq] at h
      obtain ⟨_, hr, _, hg, _, hb, rfl, rfl, rfl⟩ := h
      exact ⟨_, r, g, b, rest, rfl, hpieces, hr, hg, hb⟩
    · cases h
  · rintro ⟨_, r, g, b, rest, rfl, hpieces, hr, hg, hb⟩
    rw [hpieces]
    simp only [Option.bind_eq_bind, Option.bind_eq_some_iff, channel?_eq_some_iff]
    exact ⟨_, hr, _, hg, _, hb, rfl⟩

/-! ## Both notations -/

/-- A text with `#` in it is a color if it is `#` and three or six hexadecimal digits, and any other
text if it is a list that starts with three channels, perhaps in a wrapper. Nothing is said of six
digits with a plus sign among them. -/
theorem read?_notations (s : List Char) (c : Color) :
    ('#' ∈ s → ¬HasSignedPair (trim s) → (read? s = some c ↔ HexNotation (trim s) c)) ∧
      ('#' ∉ s → (read? s = some c ↔ ListNotation (trim s) c)) := by
  constructor
  · intro hmark hpair
    rw [read?, if_pos (List.contains_iff_mem.mpr hmark), ofHex?_eq_some_iff hpair]
  · intro hmark
    rw [read?, if_neg (by simpa using hmark), ofChannels?_eq_some_iff]

/-- `#0fA` between blanks, and `rgba(1e1 -3/2.5 .5)` -/
theorem read?_both_notations :
    read? [' ', '#', '0', 'f', 'A', '\n'] = some ⟨0, 255, 170⟩ ∧
      read? "rgba(1e1 -3/2.5 .5)".toList = some ⟨10, 0, 3⟩ := by
  constructor
  · refine ((read?_notations _ _).1 (by decide) ?_).mpr ?_
    · rintro ⟨r₁, r₂, g₁, g₂, b₁, b₂, htrim, -⟩
      have hlength : (trim [' ', '#', '0', 'f', 'A', '\n']).length = 4 := by decide
      rw [htrim] at hlength
      cases hlength
    · exact .digits (x := 0) (y := 15) (z := 10) rfl rfl rfl
  · refine ((read?_notations _ _).2 (by decide +kernel)).mpr
      ⟨"1e1 -3/2.5 .5".toList, "1e1".toList, "-3".toList, "2.5".toList, [".5".toList], .inl .rgba,
        by decide +kernel, ?_, ?_, ?_⟩
    all_goals exact channel?_eq_some_iff.mp (by decide +kernel)

/-- Words are channels: of the infinities the largest and the least, and 0 for what is no number. -/
theorem read?_words :
    read? "inf,NaN,3".toList = some ⟨255, 0, 3⟩ ∧ '#' ∉ "inf,NaN,3".toList ∧
      ¬∃ inner r g b rest, Unwrapped (trim "inf,NaN,3".toList) inner ∧
        pieces isListSeparator inner = r :: g :: b :: rest ∧
        ∃ n : Numeral, n.IsDecimal ∧ n.source = r := by
  refine ⟨by decide +kernel, by decide +kernel, ?_⟩
  rintro ⟨inner, r, g, b, rest, hinner, hpieces, n, hn, rfl⟩
  have hfirst : pieces isListSeparator (unwrap (trim "inf,NaN,3".toList)) =
      ["inf".toList, "NaN".toList, "3".toList] := by decide +kernel
  rw [unwrap_eq_iff.mpr hinner, hpieces] at hfirst
  have hsource : n.source = "inf".toList := (List.cons.inj hfirst).1
  have hmem : 'i' ∈ n.source := hsource ▸ List.mem_cons_self
  rcases hn.mem_source hmem with hdigit | hmark
  · exact absurd hdigit (by decide)
  · exact absurd hmark (by decide)

end Color

end ClassStyle
