import ClassStyle.Length
import ClassStyle.Number.Plain
import ClassStyle.Target.Color

/-!
# Printed numbers

The text of a number is a plain numeral, or one of `NaN`, `inf` and `-inf` (`printed_writeNumber`).
None of them holds a mark that stands between numbers, so a printed number is read as a whole, and
three of them with commas between them are a color (`Color.read?_printed`). A length is read from
plain numerals alone (`Length.read?_numeral`, `Length.read?_word`).
-/

namespace ClassStyle

open Text Float.Model

/-! ## Digits -/

theorem isDigit_of_mem_toDigits {c : Char} {n : Nat} (h : c ∈ Nat.toDigits 10 n) :
    isDigit c = true := by
  have hdigit := Nat.isDigit_of_mem_toDigits (by decide) (by decide) h
  simp only [Char.isDigit, isDigit, Bool.and_eq_true, decide_eq_true_eq] at hdigit ⊢
  exact hdigit

theorem toNat_of_isDigit {c : Char} (h : isDigit c = true) : 48 ≤ c.toNat ∧ c.toNat ≤ 57 := by
  simp only [isDigit, Bool.and_eq_true, decide_eq_true_eq] at h
  exact h

theorem takeWhile_isDigit {digits s : List Char} (h : ∀ c ∈ digits, isDigit c = true)
    (hs : s.head?.any isDigit = false) :
    (digits ++ s).takeWhile isDigit = digits ∧ (digits ++ s).dropWhile isDigit = s := by
  rw [List.takeWhile_append_of_pos h, List.dropWhile_append_of_pos h]
  cases s with
  | nil => simp
  | cons c s =>
    have hc : isDigit c = false := by simpa using hs
    simp [hc]

section

-- Powers are those of the core library, also where an algebra library is in scope.
attribute [local instance (high)] instPowNat

theorem decimalValue_concat (digits : List Char) (c : Char) :
    decimalValue (digits ++ [c]) = decimalValue digits * 10 + digitValue c := by
  simp [decimalValue]

theorem decimalValue_toDigits (n : Nat) : decimalValue (Nat.toDigits 10 n) = n := by
  have hstep : (fun value d => value * 10 + digitValue d) =
      fun (value : Nat) (d : Char) => 10 * value + (d.toNat - '0'.toNat) := by
    funext value d
    rw [Nat.mul_comm]
    rfl
  unfold decimalValue
  rw [hstep]
  exact Nat.ofDigitChars_toDigits (by decide) (by decide)

theorem decimalValue_zeros_append (k : Nat) (digits : List Char) :
    decimalValue (List.replicate k '0' ++ digits) = decimalValue digits := by
  induction k with
  | zero => rfl
  | succ k ih => exact ih

theorem decimalValue_append_zeros (digits : List Char) (k : Nat) :
    decimalValue (digits ++ List.replicate k '0') = decimalValue digits * 10 ^ k := by
  induction k with
  | zero => simp
  | succ k ih =>
    rw [List.replicate_succ', ← List.append_assoc, decimalValue_concat, ih, Nat.pow_succ]
    exact Nat.mul_assoc (decimalValue digits) (10 ^ k) 10

theorem exists_idle_zeros (s : List Char) :
    ∃ k, s = (s.reverse.dropWhile (· == '0')).reverse ++ List.replicate k '0' := by
  have hzeros : ∀ c ∈ s.reverse.takeWhile (· == '0'), c = '0' :=
    fun c hc => by simpa using List.all_eq_true.mp List.all_takeWhile c hc
  refine ⟨(s.reverse.takeWhile (· == '0')).length, ?_⟩
  rw [← List.reverse_inj, List.reverse_append, List.reverse_replicate, List.reverse_reverse,
    ← List.eq_replicate_of_mem hzeros, List.takeWhile_append_dropWhile]

end

/-! ## Plain numerals -/

/-- Digits, perhaps behind a sign, and perhaps with a dot and more digits behind them. -/
structure Numeral.IsPlain (n : Numeral) : Prop where
  whole_ne_nil : n.whole ≠ []
  whole_digits : ∀ c ∈ n.whole, isDigit c = true
  fraction_digits : ∀ digits ∈ n.fraction, digits ≠ [] ∧ ∀ c ∈ digits, isDigit c = true
  no_exponent : n.exponent = none

namespace Numeral

theorem scan_sign (sign : Option Sign) {body : List Char} (h : body.head?.any isDigit = true) :
    Sign.scan (Sign.source sign ++ body) = (sign, body) := by
  cases body with
  | nil => simp at h
  | cons c body =>
    have hdigit : isDigit c = true := by simpa using h
    have hrange := toNat_of_isDigit hdigit
    cases sign with
    | some sign => cases sign <;> rfl
    | none =>
      -- A digit is no sign.
      have hplus : c ≠ '+' := by rintro rfl; simp at hrange
      have hminus : c ≠ '-' := by rintro rfl; simp at hrange
      simp [Sign.source, Sign.scan, hplus, hminus]

theorem scanFraction_source (bareDot : Bool) {fraction : Option (List Char)}
    (h : ∀ digits ∈ fraction, digits ≠ [] ∧ ∀ c ∈ digits, isDigit c = true) :
    scanFraction bareDot (fractionSource fraction) = (fraction, []) := by
  cases fraction with
  | none => rfl
  | some digits =>
    obtain ⟨hne, hdigits⟩ := h digits rfl
    have hall := takeWhile_isDigit (s := []) hdigits rfl
    rw [List.append_nil] at hall
    simp [fractionSource, scanFraction, hall, hne]

theorem head?_whole_any {n : Numeral} (h : n.IsPlain) (rest : List Char) :
    (n.whole ++ rest).head?.any isDigit = true := by
  obtain ⟨c, digits, hwhole⟩ := List.exists_cons_of_ne_nil h.whole_ne_nil
  have hdigit := h.whole_digits c (by simp [hwhole])
  simp [hwhole, hdigit]

theorem scan_source {n : Numeral} (h : n.IsPlain) (bareDot : Bool) :
    scan bareDot n.source = some (n, []) := by
  have hsource : n.source =
      Sign.source n.sign ++ (n.whole ++ fractionSource n.fraction) := by
    simp [source, h.no_exponent, Exponent.source]
  have hdot : (fractionSource n.fraction).head?.any isDigit = false := by
    cases n.fraction <;> rfl
  obtain ⟨hwhole, hrest⟩ := takeWhile_isDigit h.whole_digits hdot
  rw [hsource]
  simp only [scan, scan_sign n.sign (head?_whole_any h _), hwhole, hrest,
    scanFraction_source _ h.fraction_digits]
  rw [if_neg (fun hnone => h.whole_ne_nil hnone.1)]
  obtain ⟨sign, whole, fraction, exponent⟩ := n
  obtain rfl : exponent = none := h.no_exponent
  rfl

theorem IsPlain.mem_source {n : Numeral} (h : n.IsPlain) {c : Char} (hc : c ∈ n.source) :
    isDigit c = true ∨ c ∈ ['+', '-', '.'] := by
  obtain ⟨hne, hwhole, hfraction, hexponent⟩ := h
  simp only [source, hexponent, Exponent.source, List.append_nil, List.mem_append] at hc
  rcases hc with (hc | hc) | hc
  · right
    cases hsign : n.sign with
    | none => simp [hsign, Sign.source] at hc
    | some sign => cases sign <;> simp_all [Sign.source, Sign.char]
  · exact .inl (hwhole c hc)
  · cases hf : n.fraction with
    | none => simp [hf, fractionSource] at hc
    | some digits =>
      rw [hf] at hc
      rcases List.mem_cons.mp hc with rfl | hc
      · exact .inr (by decide)
      · exact .inl ((hfraction digits hf).2 c hc)

end Numeral

/-! ## The text of a number -/

section

-- Powers are those of the core library, also where an algebra library is in scope.
attribute [local instance (high)] instPowNat

theorem exists_isPlain_places {digits : List Char} (hdigits : ∀ c ∈ digits, isDigit c = true)
    {places : Nat} (h : places < digits.length) :
    let whole := digits.take (digits.length - places)
    let kept := ((digits.drop (digits.length - places)).reverse.dropWhile (· == '0')).reverse
    ∃ fraction, Numeral.IsPlain ⟨none, whole, fraction, none⟩ ∧
      (if kept = [] then whole else whole ++ '.' :: kept) =
        whole ++ Numeral.fractionSource fraction ∧
      ∃ k, (fraction.getD []).length + k = places ∧
        decimalValue (whole ++ fraction.getD []) * 10 ^ k = decimalValue digits := by
  intro whole kept
  obtain ⟨k, hk⟩ := exists_idle_zeros (digits.drop (digits.length - places))
  have happend : digits = whole ++ kept ++ List.replicate k '0' := by
    rw [List.append_assoc, ← hk, List.take_append_drop]
  have hplaces : kept.length + k = places := by
    have hlength := congrArg List.length hk
    rw [List.length_append, List.length_replicate, List.length_drop] at hlength
    exact hlength.symm.trans (by omega)
  have hvalue : decimalValue (whole ++ kept) * 10 ^ k = decimalValue digits := by
    rw [happend, decimalValue_append_zeros]
  have hwhole : whole ≠ [] := by
    intro hnil
    have hlength := congrArg List.length hnil
    rw [List.length_take, List.length_nil] at hlength
    omega
  have hall : ∀ c ∈ whole ++ kept, isDigit c = true := by
    intro c hc
    apply hdigits c
    rw [happend]
    exact List.mem_append_left _ hc
  obtain ⟨hwholeDigits, hkept⟩ := List.forall_mem_append.mp hall
  by_cases hnil : kept = []
  · rw [if_pos hnil]
    rw [hnil] at hplaces hvalue
    exact ⟨none, ⟨hwhole, hwholeDigits, by simp, rfl⟩, (List.append_nil _).symm, k, hplaces,
      hvalue⟩
  · rw [if_neg hnil]
    refine ⟨some kept, ⟨hwhole, hwholeDigits, ?_, rfl⟩, rfl, k, hplaces, hvalue⟩
    intro fraction hfraction
    obtain rfl := Option.some.inj hfraction
    exact ⟨hnil, hkept⟩

theorem plainDecimal_eq_source (digits : Nat) (exponent : Int) :
    ∃ whole fraction, Numeral.IsPlain ⟨none, whole, fraction, none⟩ ∧
      plainDecimal digits exponent = whole ++ Numeral.fractionSource fraction ∧
      ∃ k, (fraction.getD []).length + k = (-exponent).toNat ∧
        decimalValue (whole ++ fraction.getD []) * 10 ^ k = digits * 10 ^ exponent.toNat := by
  have hdigits : ∀ c ∈ Nat.toDigits 10 digits, isDigit c = true :=
    fun c hc => isDigit_of_mem_toDigits hc
  have hzeros : ∀ n, ∀ c ∈ List.replicate n '0', isDigit c = true := by
    intro n c hc
    rw [(List.mem_replicate.mp hc).2]
    rfl
  unfold plainDecimal
  simp only
  split
  · next hexponent =>
    refine ⟨_, none, ⟨by simp, ?_, by simp, rfl⟩, (List.append_nil _).symm, 0, ?_, ?_⟩
    · exact List.forall_mem_append.mpr ⟨hdigits, hzeros _⟩
    · rw [Option.getD_none, List.length_nil]
      omega
    · rw [Option.getD_none, List.append_nil, decimalValue_append_zeros, decimalValue_toDigits,
        Nat.pow_zero, Nat.mul_one]
  · next hexponent =>
    have hplaces : exponent.natAbs = (-exponent).toNat ∧ exponent.toNat = 0 := by omega
    rw [hplaces.1, hplaces.2, Nat.pow_zero, Nat.mul_one]
    generalize (-exponent).toNat = places
    generalize hpadded : List.replicate (places + 1 - (Nat.toDigits 10 digits).length) '0' ++
      Nat.toDigits 10 digits = padded
    have hall : ∀ c ∈ padded, isDigit c = true := by
      rw [← hpadded]
      exact List.forall_mem_append.mpr ⟨hzeros _, hdigits⟩
    have hvalue : decimalValue padded = digits := by
      rw [← hpadded, decimalValue_zeros_append, decimalValue_toDigits]
    have hlength : places < padded.length := by
      rw [← hpadded, List.length_append, List.length_replicate]
      omega
    obtain ⟨fraction, hplain, htext, k, hk, hdecimal⟩ := exists_isPlain_places hall hlength
    exact ⟨_, fraction, hplain, htext, k, hk, hdecimal.trans hvalue⟩

end

/-- The sign that stands before a number. -/
def writtenSign : UnpackedFloat.Sign → Option Sign
  | .positive => none
  | .negative => some .minus

theorem exists_isPlain_signed (sign : UnpackedFloat.Sign) {whole : List Char}
    {fraction : Option (List Char)} (h : Numeral.IsPlain ⟨none, whole, fraction, none⟩) :
    ∃ n : Numeral, n.IsPlain ∧ signed sign (whole ++ Numeral.fractionSource fraction) = n.source ∧
      n.sign = writtenSign sign ∧ n.whole = whole ∧ n.fraction = fraction := by
  obtain ⟨hne, hwhole, hfraction, -⟩ := h
  refine ⟨⟨writtenSign sign, whole, fraction, none⟩, ⟨hne, hwhole, hfraction, rfl⟩, ?_, rfl, rfl,
    rfl⟩
  cases sign with
  | positive => simp [signed, writtenSign, Numeral.source, Sign.source, Exponent.source]
  | negative =>
    simp [signed, writtenSign, Numeral.source, Sign.source, Sign.char, Exponent.source]

theorem exists_isPlain_writeNumber (format : Format) {x : UnpackedFloat}
    (h : x.isFinite = true) :
    ∃ n : Numeral, n.IsPlain ∧ writeNumber format x = n.source := by
  cases x with
  | notANumber => cases h
  | infinity sign => cases h
  | zero sign =>
    have hplain : Numeral.IsPlain ⟨none, ['0'], none, none⟩ :=
      ⟨by simp, by simp [isDigit], by simp, rfl⟩
    obtain ⟨n, hn, htext, -⟩ := exists_isPlain_signed sign hplain
    exact ⟨n, hn, htext⟩
  | finite sign m e hm =>
    unfold writeNumber
    simp only
    generalize (Shortest.Dyadic.ofFinite format m e).shortest = decimal
    obtain ⟨whole, fraction, hplain, heq, -⟩ := plainDecimal_eq_source decimal.1 decimal.2
    obtain ⟨n, hn, htext, -⟩ := exists_isPlain_signed sign hplain
    exact ⟨n, hn, by rw [heq, htext]⟩

/-- What the text of a number can be. -/
inductive Printed : List Char → Prop
  | numeral {n : Numeral} : n.IsPlain → Printed n.source
  | nan : Printed ['N', 'a', 'N']
  | infinite : Printed ['i', 'n', 'f']
  | negativeInfinite : Printed ['-', 'i', 'n', 'f']

theorem printed_writeNumber (format : Format) (x : UnpackedFloat) :
    Printed (writeNumber format x) := by
  cases x with
  | notANumber => exact .nan
  | infinity sign =>
    cases sign with
    | positive => exact .infinite
    | negative => exact .negativeInfinite
  | zero sign =>
    obtain ⟨n, hplain, htext⟩ := exists_isPlain_writeNumber format (x := .zero sign) rfl
    rw [htext]
    exact .numeral hplain
  | finite sign m e hm =>
    obtain ⟨n, hplain, htext⟩ :=
      exists_isPlain_writeNumber format (x := .finite sign m e hm) rfl
    rw [htext]
    exact .numeral hplain

theorem printed_writeSingle (x : Float32) : Printed (writeSingle x) := printed_writeNumber _ _

namespace Printed

variable {text : List Char}

theorem readFloat?_isSome (h : Printed text) : (readFloat? text).isSome = true := by
  unfold readFloat?
  cases h with
  | numeral h => rw [Decimal.ofText?_source (Numeral.scan_source h true)]; rfl
  | nan => rfl
  | infinite => rfl
  | negativeInfinite => rfl

theorem exists_readFloat? (h : Printed text) : ∃ x, readFloat? text = some x :=
  Option.isSome_iff_exists.mp h.readFloat?_isSome

theorem mem_cases (h : Printed text) {c : Char} (hc : c ∈ text) :
    isDigit c = true ∨ c ∈ ['+', '-', '.', 'N', 'a', 'i', 'n', 'f'] := by
  cases h with
  | numeral h =>
    refine (h.mem_source hc).imp id fun hmark => ?_
    simp only [List.mem_cons, List.not_mem_nil, or_false] at hmark ⊢
    grind
  | nan | infinite | negativeInfinite =>
    right
    simp only [List.mem_cons, List.not_mem_nil, or_false] at hc ⊢
    grind

theorem ne_nil (h : Printed text) : text ≠ [] := by
  cases h with
  | numeral h => simp [Numeral.source, h.whole_ne_nil]
  | nan | infinite | negativeInfinite => simp

theorem forall_mem (h : Printed text) {p : Char → Prop}
    (hdigit : ∀ c, 48 ≤ c.toNat → c.toNat ≤ 57 → p c)
    (hother : ∀ c ∈ ['+', '-', '.', 'N', 'a', 'i', 'n', 'f'], p c) : ∀ c ∈ text, p c := by
  intro c hc
  rcases h.mem_cases hc with hc | hc
  · obtain ⟨hlow, hhigh⟩ := toNat_of_isDigit hc
    exact hdigit c hlow hhigh
  · exact hother c hc

theorem no_separator (h : Printed text) : ∀ c ∈ text, isListSeparator c = false := by
  refine h.forall_mem ?_ (by simp [isListSeparator, isBlank, blankRanges])
  intro c hlow hhigh
  have hcomma : c ≠ ',' := by rintro rfl; simp at hlow
  have hslash : c ≠ '/' := by rintro rfl; simp at hlow
  have hblank : isBlank c = false := by
    simp only [isBlank, blankRanges, List.any_cons, List.any_nil, Bool.or_false,
      Bool.or_eq_false_iff, Bool.and_eq_false_iff, decide_eq_false_iff_not]
    omega
  simp [isListSeparator, hcomma, hslash, hblank]

theorem no_blank (h : Printed text) : ∀ c ∈ text, isBlank c = false := by
  intro c hc
  have hnone := h.no_separator c hc
  simp only [isListSeparator, Bool.or_eq_false_iff] at hnone
  exact hnone.2

theorem not_mem (h : Printed text) {d : Char} (hdigit : ¬(48 ≤ d.toNat ∧ d.toNat ≤ 57))
    (hother : d ∉ ['+', '-', '.', 'N', 'a', 'i', 'n', 'f']) : d ∉ text := by
  intro hd
  have hne := h.forall_mem (p := (· ≠ d)) (by rintro c hlow hhigh rfl; exact hdigit ⟨hlow, hhigh⟩)
    (by rintro c hc rfl; exact hother hc)
  exact hne d hd rfl

end Printed

/-! ## Colors -/

section

variable {cut : Char → Bool} {c d : Char} {s t : List Char}

theorem pieces_of_cut_cons (hd : cut d = true) : pieces cut (d :: s) = pieces cut s := by
  simp [pieces, hd]

theorem pieces_cons_cut (hc : cut c = false) (hd : cut d = true) :
    pieces cut (c :: d :: s) = [c] :: pieces cut s := by
  rw [pieces.eq_def]
  simp only [hc, Bool.false_eq_true, if_false]
  rw [pieces_of_cut_cons hd]
  cases pieces cut s with
  | nil => rfl
  | cons piece rest => simp [hd]

theorem pieces_cons_of_not_cut (hc : cut c = false) (hd : cut d = false) {piece : List Char}
    {rest : List (List Char)} (h : pieces cut (d :: s) = piece :: rest) :
    pieces cut (c :: d :: s) = (c :: piece) :: rest := by
  rw [pieces.eq_def]
  simp [hc, hd, h]

theorem pieces_cons_ne_nil (hc : cut c = false) : pieces cut (c :: s) ≠ [] := by
  unfold pieces
  rw [if_neg (by simp [hc])]
  split
  · split <;> simp
  · simp

theorem pieces_append_cons (hd : cut d = true) :
    pieces cut (t ++ d :: s) = pieces cut t ++ pieces cut s := by
  induction t with
  | nil => exact pieces_of_cut_cons hd
  | cons c t ih =>
    cases hc : cut c with
    | true => rw [List.cons_append, pieces_of_cut_cons hc, pieces_of_cut_cons hc, ih]
    | false =>
      cases t with
      | nil => simpa [pieces, hc] using pieces_cons_cut hc hd
      | cons e t =>
        rw [List.cons_append, List.cons_append] at *
        cases he : cut e with
        | true =>
          rw [pieces_of_cut_cons he, pieces_of_cut_cons he] at ih
          rw [pieces_cons_cut hc he, pieces_cons_cut hc he, ih, List.cons_append]
        | false =>
          obtain ⟨piece, rest, hpieces⟩ :=
            List.exists_cons_of_ne_nil (pieces_cons_ne_nil (s := t) he)
          rw [hpieces, List.cons_append] at ih
          rw [pieces_cons_of_not_cut hc he ih, pieces_cons_of_not_cut hc he hpieces,
            List.cons_append]

theorem pieces_of_no_cut (hne : t ≠ []) (ht : ∀ c ∈ t, cut c = false) : pieces cut t = [t] := by
  induction t with
  | nil => exact absurd rfl hne
  | cons c t ih =>
    obtain ⟨hc, ht⟩ := List.forall_mem_cons.mp ht
    cases t with
    | nil => simp [pieces, hc]
    | cons e t => exact pieces_cons_of_not_cut hc (ht e List.mem_cons_self) (ih (by simp) ht)

theorem pieces_append_cut (hne : t ≠ []) (ht : ∀ c ∈ t, cut c = false) (hd : cut d = true) :
    pieces cut (t ++ d :: s) = t :: pieces cut s := by
  rw [pieces_append_cons hd, pieces_of_no_cut hne ht, List.singleton_append]

end

theorem trim_of_no_blank {t : List Char} (h : ∀ c ∈ t, isBlank c = false) : trim t = t := by
  have hdrop : ∀ s : List Char, (∀ c ∈ s, isBlank c = false) → s.dropWhile isBlank = s := by
    intro s hs
    cases s with
    | nil => rfl
    | cons c s => simp [hs c (by simp)]
  unfold trim trimEnd trimStart
  rw [hdrop t h, hdrop t.reverse (by simpa using h), List.reverse_reverse]

theorem exists_trim (text : List Char) :
    ∃ before after, text = before ++ (trim text ++ after) ∧ (∀ c ∈ before, isBlank c = true) ∧
      ∀ c ∈ after, isBlank c = true := by
  have hstart := List.takeWhile_append_dropWhile (p := isBlank) (l := text)
  have hend := List.takeWhile_append_dropWhile (p := isBlank) (l := (trimStart text).reverse)
  have hsplit : trimStart text =
      trim text ++ ((trimStart text).reverse.takeWhile isBlank).reverse := by
    have hreverse := congrArg List.reverse hend
    rw [List.reverse_append, List.reverse_reverse] at hreverse
    exact hreverse.symm
  refine ⟨text.takeWhile isBlank, ((trimStart text).reverse.takeWhile isBlank).reverse, ?_, ?_, ?_⟩
  · rw [← hsplit]
    exact hstart.symm
  · exact fun c hc => List.all_eq_true.mp List.all_takeWhile c hc
  · exact fun c hc => List.all_eq_true.mp List.all_takeWhile c (List.mem_reverse.mp hc)

theorem Color.read?_printed {r g b : List Char} (hr : Printed r) (hg : Printed g)
    (hb : Printed b) :
    ∃ x y z, readFloat? r = some x ∧ readFloat? g = some y ∧ readFloat? b = some z ∧
      Color.read? ([','].intercalate [r, g, b]) =
        some ⟨nearestByte x, nearestByte y, nearestByte z⟩ := by
  obtain ⟨x, hx⟩ := hr.exists_readFloat?
  obtain ⟨y, hy⟩ := hg.exists_readFloat?
  obtain ⟨z, hz⟩ := hb.exists_readFloat?
  refine ⟨x, y, z, hx, hy, hz, ?_⟩
  have htext : [','].intercalate [r, g, b] = r ++ ',' :: (g ++ ',' :: b) := by
    simp [List.intercalate]
  have hmem : ∀ c ∈ r ++ ',' :: (g ++ ',' :: b), c = ',' ∨ c ∈ r ∨ c ∈ g ∨ c ∈ b := by
    intro c hc
    simp only [List.mem_append, List.mem_cons] at hc
    rcases hc with hc | hc | hc | hc | hc <;> simp [hc]
  have hhash : ('#' ∈ r ++ ',' :: (g ++ ',' :: b)) = False := by
    rw [eq_iff_iff, iff_false]
    intro hc
    rcases hmem '#' hc with hc | hc | hc | hc
    · simp at hc
    · exact hr.not_mem (by decide) (by decide) hc
    · exact hg.not_mem (by decide) (by decide) hc
    · exact hb.not_mem (by decide) (by decide) hc
  have hblank : ∀ c ∈ r ++ ',' :: (g ++ ',' :: b), isBlank c = false := by
    intro c hc
    rcases hmem c hc with rfl | hc | hc | hc
    · rfl
    · exact hr.no_blank c hc
    · exact hg.no_blank c hc
    · exact hb.no_blank c hc
  have hunwrap : Color.unwrap (r ++ ',' :: (g ++ ',' :: b)) = r ++ ',' :: (g ++ ',' :: b) := by
    obtain ⟨c, t, rfl⟩ := List.exists_cons_of_ne_nil hr.ne_nil
    have hc : 'r' ≠ c := by
      rintro rfl
      exact hr.not_mem (by decide) (by decide) List.mem_cons_self
    simp [Color.unwrap, Color.dropFront?, hc]
  have hcomma : isListSeparator ',' = true := rfl
  unfold Color.read? Color.ofChannels?
  rw [htext, List.contains_eq_mem]
  simp only [hhash, decide_false, Bool.false_eq_true, if_false, trim_of_no_blank hblank, hunwrap,
    pieces_append_cut hr.ne_nil hr.no_separator hcomma,
    pieces_append_cut hg.ne_nil hg.no_separator hcomma,
    pieces_of_no_cut hb.ne_nil hb.no_separator, Color.channel?, hx, hy, hz]
  rfl

/-! ## Lengths -/

theorem Length.read?_numeral {n : Numeral} (h : n.IsPlain) :
    ∃ x, readFloat? n.source = some x ∧ Length.read? n.source = some ⟨x, .px⟩ := by
  have hprinted : Printed n.source := .numeral h
  obtain ⟨x, hx⟩ := hprinted.exists_readFloat?
  refine ⟨x, hx, ?_⟩
  have hwords : words n.source = [n.source] := pieces_of_no_cut hprinted.ne_nil hprinted.no_blank
  have hsplit : splitNumeral n.source = (n.source, []) := by
    unfold splitNumeral
    rw [Numeral.scan_source h]
  unfold read? readAll
  rw [hwords, List.foldl_cons, List.foldl_nil]
  simp [Reading.word, hsplit, hprinted.ne_nil, hx, LengthUnit.ofName, lower]

theorem Length.read?_printed {text : List Char} (h : Printed text) :
    Length.read? text = none ∨
      ∃ x, readFloat? text = some x ∧ Length.read? text = some ⟨x, .px⟩ := by
  cases h with
  | numeral h => exact .inr (read?_numeral h)
  | nan => exact .inl rfl
  | infinite => exact .inl rfl
  | negativeInfinite => exact .inl rfl

end ClassStyle
