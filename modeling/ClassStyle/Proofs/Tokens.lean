import ClassStyle.Proofs.Blanks
import ClassStyle.Proofs.Printed

/-!
# Numbers as tokens

A numeral is one token together with the percent sign or the name right behind it, and with nothing
else of what follows.
-/

namespace ClassStyle

open Text

theorem forall_ascii {p : Char → Prop} (h : ∀ n < 128, p (Char.ofNat n)) {c : Char}
    (hc : c.toNat < 128) : p c := by
  have hchar := h c.toNat hc
  rwa [Char.ofNat_toNat] at hchar

/-! ## Numerals -/

/-- A numeral with digits in front of its dot or behind it, and perhaps an exponent. -/
structure Numeral.IsDecimal (n : Numeral) : Prop where
  whole_digits : ∀ c ∈ n.whole, isDigit c = true
  fraction_digits : ∀ digits ∈ n.fraction, ∀ c ∈ digits, isDigit c = true
  exponent_digits : ∀ e ∈ n.exponent, (e.marker = 'e' ∨ e.marker = 'E') ∧ e.digits ≠ [] ∧
    ∀ c ∈ e.digits, isDigit c = true
  some_digits : n.whole ≠ [] ∨ n.fractionDigits ≠ []

/-- A numeral as stylesheets have it: digits, or a dot with digits behind it, or both, and perhaps
an exponent. -/
structure Numeral.IsCss (n : Numeral) : Prop where
  whole_digits : ∀ c ∈ n.whole, isDigit c = true
  fraction_digits : ∀ digits ∈ n.fraction, digits ≠ [] ∧ ∀ c ∈ digits, isDigit c = true
  exponent_digits : ∀ e ∈ n.exponent, (e.marker = 'e' ∨ e.marker = 'E') ∧ e.digits ≠ [] ∧
    ∀ c ∈ e.digits, isDigit c = true
  some_digits : n.whole ≠ [] ∨ n.fraction.isSome

theorem Numeral.IsPlain.isCss {n : Numeral} (h : n.IsPlain) : n.IsCss :=
  ⟨h.whole_digits, h.fraction_digits, by simp [h.no_exponent], .inl h.whole_ne_nil⟩

theorem Numeral.IsCss.isDecimal {n : Numeral} (h : n.IsCss) : n.IsDecimal := by
  refine ⟨h.whole_digits, fun digits hd => (h.fraction_digits digits hd).2, h.exponent_digits,
    h.some_digits.imp_right fun hsome => ?_⟩
  obtain ⟨digits, hfraction⟩ := Option.isSome_iff_exists.mp hsome
  rw [fractionDigits, hfraction]
  exact (h.fraction_digits digits hfraction).1

namespace Numeral.IsDecimal

variable {n : Numeral}

theorem source_ne_nil (h : n.IsDecimal) : n.source ≠ [] := by
  intro hnil
  simp only [source, List.append_eq_nil_iff] at hnil
  obtain ⟨⟨⟨-, hwhole⟩, hfraction⟩, -⟩ := hnil
  refine h.some_digits.resolve_left (not_not_intro hwhole) ?_
  cases hdigits : n.fraction with
  | none => rw [fractionDigits, hdigits, Option.getD_none]
  | some digits =>
    rw [hdigits] at hfraction
    cases hfraction

theorem mem_source (h : n.IsDecimal) {c : Char} (hc : c ∈ n.source) :
    isDigit c = true ∨ c ∈ ['+', '-', '.', 'e', 'E'] := by
  have hsign : ∀ {sign : Option Sign}, c ∈ Sign.source sign → c ∈ ['+', '-', '.', 'e', 'E'] := by
    rintro (- | - | -) hc <;> simp_all [Sign.source, Sign.char]
  simp only [source, List.mem_append] at hc
  rcases hc with ((hc | hc) | hc) | hc
  · exact .inr (hsign hc)
  · exact .inl (h.whole_digits c hc)
  · cases hfraction : n.fraction with
    | none => simp [hfraction, fractionSource] at hc
    | some digits =>
      rw [hfraction] at hc
      rcases List.mem_cons.mp hc with rfl | hc
      · exact .inr (by decide)
      · exact .inl (h.fraction_digits digits hfraction c hc)
  · cases hexponent : n.exponent with
    | none => simp [hexponent, Exponent.source] at hc
    | some e =>
      obtain ⟨hmarker, -, hdigits⟩ := h.exponent_digits e hexponent
      rw [hexponent, Exponent.source, List.cons_append, List.mem_cons, List.mem_append] at hc
      rcases hc with rfl | hc | hc
      · right
        rcases hmarker with hmarker | hmarker <;> simp [hmarker]
      · exact .inr (hsign hc)
      · exact .inl (hdigits c hc)

theorem no_separator (h : n.IsDecimal) : ∀ c ∈ n.source, isListSeparator c = false := by
  have hmarks : ∀ c ∈ ['+', '-', '.', 'e', 'E'], isListSeparator c = false :=
    Css.forall_mem_of_all (by decide)
  intro c hc
  rcases h.mem_source hc with hc | hc
  · refine forall_ascii (p := fun c => isDigit c = true → isListSeparator c = false) (by decide)
      ?_ hc
    exact Nat.lt_of_le_of_lt (toNat_of_isDigit hc).2 (by decide)
  · exact hmarks c hc

theorem no_blank (h : n.IsDecimal) : ∀ c ∈ n.source, isBlank c = false := by
  intro c hc
  have hnone := h.no_separator c hc
  simp only [isListSeparator, Bool.or_eq_false_iff] at hnone
  exact hnone.2

end Numeral.IsDecimal

/-- What follows a numeral does not go on with it. -/
structure EndsNumeral (rest : List Char) : Prop where
  no_digit : rest.head?.any isDigit = false
  no_dot : rest.head? ≠ some '.'
  no_exponent : (Exponent.scan rest).1 = none

theorem scan_eq_none {c : Char} {s : List Char}
    (h : (c ≠ 'e' ∧ c ≠ 'E') ∨ ∀ d ∈ s.head?, isDigit d = false ∧ d ≠ '+' ∧ d ≠ '-') :
    (Exponent.scan (c :: s)).1 = none := by
  unfold Exponent.scan
  simp only
  refine congrArg Prod.fst (if_neg ?_)
  rintro ⟨hmarker, hdigits⟩
  rcases h with h | h
  · rcases hmarker with hmarker | hmarker
    · exact h.1 hmarker
    · exact h.2 hmarker
  · cases s with
    | nil => exact hdigits rfl
    | cons d s =>
      obtain ⟨hdigit, hplus, hminus⟩ := h d rfl
      have hsign : Sign.scan (d :: s) = (none, d :: s) := by simp [Sign.scan, hplus, hminus]
      rw [hsign, List.takeWhile_cons_of_neg (by simp [hdigit])] at hdigits
      exact hdigits rfl

theorem endsNumeral_of_head {rest : List Char}
    (h : ∀ c ∈ rest.head?, isDigit c = false ∧ c ∉ ['.', 'e', 'E']) : EndsNumeral rest := by
  cases rest with
  | nil => exact ⟨rfl, by simp, rfl⟩
  | cons c rest =>
    obtain ⟨hdigit, hmark⟩ := h c rfl
    simp only [List.mem_cons, List.not_mem_nil, or_false, not_or] at hmark
    exact ⟨by simpa using hdigit, by simpa using hmark.1, scan_eq_none (.inl hmark.2)⟩

theorem head?_any_append {p : Char → Bool} {a b : List Char} (ha : a.head?.any p = false)
    (hb : b.head?.any p = false) : (a ++ b).head?.any p = false := by
  cases a with
  | nil => exact hb
  | cons c a => exact ha

namespace Numeral

variable {n : Numeral} {rest : List Char}

theorem scan_sign_body (sign : Option Sign) {body : List Char}
    (h : ∀ c ∈ body.head?, c ≠ '+' ∧ c ≠ '-') :
    Sign.scan (Sign.source sign ++ body) = (sign, body) := by
  cases sign with
  | some sign => cases sign <;> rfl
  | none =>
    cases body with
    | nil => rfl
    | cons c body =>
      obtain ⟨hplus, hminus⟩ := h c rfl
      simp [Sign.source, Sign.scan, hplus, hminus]

theorem ne_sign_of_isDigit {c : Char} (h : isDigit c = true) : c ≠ '+' ∧ c ≠ '-' := by
  constructor <;> rintro rfl <;> exact absurd h (by decide)

theorem scan_exponent (h : n.IsDecimal) (hrest : EndsNumeral rest) :
    Exponent.scan (Exponent.source n.exponent ++ rest) = (n.exponent, rest) := by
  cases hexponent : n.exponent with
  | none =>
    have hnone := hrest.no_exponent
    have hsource := Exponent.source_scan_append rest
    rw [hnone] at hsource
    exact Prod.ext hnone hsource
  | some e =>
    obtain ⟨hmarker, hne, hdigits⟩ := h.exponent_digits e hexponent
    obtain ⟨hall, hbehind⟩ := takeWhile_isDigit hdigits hrest.no_digit
    have hhead : ∀ c ∈ (e.digits ++ rest).head?, c ≠ '+' ∧ c ≠ '-' := by
      obtain ⟨d, digits, heq⟩ := List.exists_cons_of_ne_nil hne
      intro c hc
      rw [heq, List.cons_append, List.head?_cons, Option.mem_some_iff] at hc
      exact ne_sign_of_isDigit (hdigits c (by rw [heq, ← hc]; exact List.mem_cons_self))
    have hscan := scan_sign_body e.sign hhead
    have hsource : Exponent.source (some e) ++ rest =
        e.marker :: (Sign.source e.sign ++ (e.digits ++ rest)) := by
      simp [Exponent.source]
    rw [hsource, Exponent.scan, hscan]
    simp only [hall, hbehind]
    rw [if_pos ⟨hmarker, hne⟩]

theorem head?_exponent (h : n.IsDecimal) (hrest : EndsNumeral rest) :
    (Exponent.source n.exponent ++ rest).head?.any isDigit = false ∧
      (Exponent.source n.exponent ++ rest).head? ≠ some '.' := by
  cases hexponent : n.exponent with
  | none => exact ⟨hrest.no_digit, hrest.no_dot⟩
  | some e =>
    obtain ⟨hmarker | hmarker, -⟩ := h.exponent_digits e hexponent <;>
      simp [Exponent.source, hmarker, isDigit]

theorem scan_fraction (h : n.IsDecimal) (hrest : EndsNumeral rest) {bareDot : Bool}
    (hdot : ∀ digits ∈ n.fraction, digits ≠ [] ∨ bareDot = true) :
    scanFraction bareDot (fractionSource n.fraction ++ (Exponent.source n.exponent ++ rest)) =
      (n.fraction, Exponent.source n.exponent ++ rest) := by
  obtain ⟨hdigit, hno_dot⟩ := head?_exponent h hrest
  generalize Exponent.source n.exponent ++ rest = tail at hdigit hno_dot ⊢
  cases hfraction : n.fraction with
  | none =>
    cases tail with
    | nil => rfl
    | cons c tail =>
      have hc : c ≠ '.' := by simpa using hno_dot
      simp [fractionSource, scanFraction, hc]
  | some digits =>
    have hdigits := h.fraction_digits digits hfraction
    obtain ⟨hall, hbehind⟩ := takeWhile_isDigit hdigits hdigit
    simp [fractionSource, scanFraction, hall, hbehind, hdot digits hfraction]

theorem head?_body (h : n.IsDecimal) (rest : List Char) :
    ∃ c body, n.whole ++ (fractionSource n.fraction ++ rest) = c :: body ∧
      (isDigit c = true ∨ c = '.' ∧ body.head?.any isDigit = true) := by
  cases hwhole : n.whole with
  | cons c whole => exact ⟨c, _, rfl, .inl (h.whole_digits c (by simp [hwhole]))⟩
  | nil =>
    have hne := h.some_digits.resolve_left (not_not_intro hwhole)
    unfold fractionDigits at hne
    cases hfraction : n.fraction with
    | none => exact absurd (by rw [hfraction]; rfl) hne
    | some digits =>
      obtain ⟨d, digits, rfl⟩ := List.exists_cons_of_ne_nil (by simpa [hfraction] using hne)
      have hd := h.fraction_digits _ hfraction d List.mem_cons_self
      exact ⟨'.', d :: (digits ++ rest), by simp [fractionSource], .inr ⟨rfl, by simpa using hd⟩⟩

theorem scan_decimal_append (h : n.IsDecimal) (hrest : EndsNumeral rest) {bareDot : Bool}
    (hdot : ∀ digits ∈ n.fraction, digits ≠ [] ∨ bareDot = true) :
    scan bareDot (n.source ++ rest) = some (n, rest) := by
  have hsource : n.source ++ rest = Sign.source n.sign ++
      (n.whole ++ (fractionSource n.fraction ++ (Exponent.source n.exponent ++ rest))) := by
    simp [source]
  have hhead : ∀ c ∈ (n.whole ++ (fractionSource n.fraction ++
      (Exponent.source n.exponent ++ rest))).head?, c ≠ '+' ∧ c ≠ '-' := by
    obtain ⟨d, body, heq, hd⟩ := head?_body h (Exponent.source n.exponent ++ rest)
    intro c hc
    rw [heq, List.head?_cons, Option.mem_some_iff] at hc
    subst hc
    rcases hd with hd | ⟨rfl, -⟩
    · exact ne_sign_of_isDigit hd
    · decide
  have htail : (fractionSource n.fraction ++
      (Exponent.source n.exponent ++ rest)).head?.any isDigit = false := by
    refine head?_any_append ?_ (head?_exponent h hrest).1
    cases n.fraction <;> rfl
  obtain ⟨hwhole, hbehind⟩ := takeWhile_isDigit h.whole_digits htail
  -- A bare dot stands behind digits.
  have hbare : ∀ digits ∈ n.fraction, digits ≠ [] ∨ (bareDot && !n.whole.isEmpty) = true := by
    intro digits hfraction
    by_cases hempty : digits = []
    · have hbare := (hdot digits hfraction).resolve_left (not_not_intro hempty)
      have hdigits : n.fractionDigits = [] := by
        rw [fractionDigits, Option.mem_def.mp hfraction, hempty, Option.getD_some]
      have hne := h.some_digits.resolve_right (not_not_intro hdigits)
      exact .inr (by simp [hbare, hne])
    · exact .inl hempty
  rw [hsource]
  simp only [scan, scan_sign_body n.sign hhead, hwhole, hbehind,
    scan_fraction h hrest hbare, scan_exponent h hrest]
  refine if_neg fun hnone => ?_
  obtain hne | hne := h.some_digits
  · exact hne hnone.1
  · exact hne (by rw [fractionDigits, hnone.2]; rfl)

theorem isDigit_of_mem_takeWhile {c : Char} {s : List Char} (h : c ∈ s.takeWhile isDigit) :
    isDigit c = true :=
  List.all_eq_true.mp List.all_takeWhile c h

theorem digits_of_scanFraction {bareDot : Bool} {s digits : List Char}
    (h : digits ∈ (scanFraction bareDot s).1) :
    (∀ c ∈ digits, isDigit c = true) ∧ (digits ≠ [] ∨ bareDot = true) := by
  unfold scanFraction at h
  split at h
  · cases h
  · simp only at h
    split at h
    · next hdot =>
      obtain rfl := Option.mem_some_iff.mp h
      exact ⟨fun c => isDigit_of_mem_takeWhile, hdot.2⟩
    · cases h

theorem digits_of_scan_exponent {s : List Char} {e : Exponent} (h : e ∈ (Exponent.scan s).1) :
    (e.marker = 'e' ∨ e.marker = 'E') ∧ e.digits ≠ [] ∧ ∀ c ∈ e.digits, isDigit c = true := by
  unfold Exponent.scan at h
  split at h
  · cases h
  · simp only at h
    split at h
    · next hdigits =>
      obtain rfl := Option.mem_some_iff.mp h
      exact ⟨hdigits.1, hdigits.2, fun c => isDigit_of_mem_takeWhile⟩
    · cases h

theorem isDecimal_of_scan {bareDot : Bool} {s : List Char}
    (h : scan bareDot s = some (n, rest)) : n.IsDecimal := by
  simp only [scan] at h
  split at h
  · cases h
  · next hdigits =>
    simp only [Option.some.injEq, Prod.mk.injEq] at h
    obtain ⟨rfl, -⟩ := h
    refine ⟨fun c => isDigit_of_mem_takeWhile, fun digits hd => (digits_of_scanFraction hd).1,
      fun e => digits_of_scan_exponent, ?_⟩
    by_cases hwhole : (Sign.scan s).2.takeWhile isDigit = []
    · refine .inr fun hempty => hdigits ⟨hwhole, ?_⟩
      unfold fractionDigits at hempty
      simp only [hwhole, List.isEmpty_nil, Bool.not_true, Bool.and_false] at hempty ⊢
      -- Without digits in front, a dot is not taken without digits behind it.
      refine Option.eq_none_iff_forall_not_mem.mpr fun digits hd => ?_
      have hne := (digits_of_scanFraction hd).2.resolve_right Bool.false_ne_true
      rw [Option.mem_def.mp hd, Option.getD_some] at hempty
      exact hne hempty
    · exact .inl hwhole

theorem scan_source_append (h : n.IsCss) (hrest : EndsNumeral rest) (bareDot : Bool) :
    scan bareDot (n.source ++ rest) = some (n, rest) :=
  scan_decimal_append h.isDecimal hrest fun digits hd => .inl (h.fraction_digits digits hd).1

end Numeral

namespace Css

/-! ## Names -/

/-- Characters of a name that stand for themselves. -/
def IsPlainName (u : List Char) : Prop := ∀ c ∈ u, isNameChar c = true ∧ c ≠ '\x00'

/-- What follows a name does not go on with it. -/
def EndsName (rest : List Char) : Prop :=
  rest.head?.any isNameChar = false ∧ rest.head? ≠ some '\\'

theorem nameChars_append {u rest : List Char} (hu : IsPlainName u) (hrest : EndsName rest) :
    nameChars 0 (u ++ rest) = u.map fun c => (c, 1) := by
  induction u with
  | nil =>
    cases rest with
    | nil => rfl
    | cons c rest =>
      have hc : isNameChar c = false := by simpa using hrest.1
      have hescape : c ≠ '\\' := by simpa using hrest.2
      simp [nameChars, nameChar?, hc, hescape]
  | cons c u ih =>
    obtain ⟨⟨hc, hzero⟩, hu⟩ := List.forall_mem_cons.mp hu
    have hescape : c ≠ '\\' := by
      rintro rfl
      exact absurd hc (by decide)
    have hchar : nameChar? (c :: (u ++ rest)) = some (c, 1) := by
      simp [nameChar?, hescape, hc, hzero]
    rw [List.cons_append, nameChars, hchar, List.map_cons, ← ih hu]

theorem readName_append {u rest : List Char} (hu : IsPlainName u) (hrest : EndsName rest) :
    readName (u ++ rest) = (String.ofList u, u.length) := by
  have hsum : ((u.map fun c => (c, 1)).map Prod.snd).sum = u.length := by
    rw [List.map_map]
    induction u with
    | nil => rfl
    | cons c u ih =>
      have hrec := ih fun d hd => hu d (List.mem_cons_of_mem c hd)
      rw [List.map_cons, List.sum_cons, hrec, List.length_cons]
      exact Nat.add_comm 1 u.length
  have hchars : (u.map fun c => (c, 1)).map Prod.fst = u := by
    rw [List.map_map]
    exact List.map_id u
  rw [readName, nameChars_append hu hrest]
  simp only [hsum, hchars]

/-! ## One token -/

theorem lexemes_of_tokenAt {c : Char} {s rest : List Char} {token : Token}
    (h : tokenAt c (s ++ rest) = (token, s.length + 1)) :
    lexemes (c :: (s ++ rest)) = ⟨token, c :: s⟩ :: lexemes rest := by
  have hlexeme : lexemeAt c (s ++ rest) = ⟨token, c :: s⟩ := by
    simp [lexemeAt, h]
  rw [lexemes_cons, hlexeme]
  simp

/-- The characters that tokens of other kinds start with. -/
def otherStarts : List Char :=
  [' ', '\t', '\n', '\r', '\x0c', '"', '\'', '/', '(', '[', '{', ')', ']', '}', ',', ':', ';', '#',
    '@', '$', '*', '^', '|', '~', '<']

theorem not_otherStarts :
    ∀ d ∈ otherStarts, ¬(isDigit d = true ∨ d ∈ ['.', '+', '-']) :=
  forall_mem_of_all (by decide)

theorem tokenAt_numeral {c : Char} {s : List Char}
    (hc : isDigit c = true ∨ c ∈ ['.', '+', '-'])
    (h : (isDigit c || startsMagnitude (if c = '+' ∨ c = '-' then s else c :: s)) = true) :
    tokenAt c s = numericToken (c :: s) := by
  have hne : ∀ d ∈ otherStarts, c ≠ d := by
    rintro d hd rfl
    exact not_otherStarts c hd hc
  simp only [otherStarts, List.forall_mem_cons, List.not_mem_nil, false_implies, implies_true,
    and_true] at hne
  simp [tokenAt, isSpace, isNewline, hne, h]

theorem startsMagnitude_cons {d : Char} {body : List Char}
    (h : isDigit d = true ∨ d = '.' ∧ body.head?.any isDigit = true) :
    startsMagnitude (d :: body) = true := by
  rcases h with hd | ⟨rfl, hbody⟩
  · simp [startsMagnitude, startsWithDigit, hd]
  · simp [startsMagnitude, startsWithDigit, hbody]

section

variable {n : Numeral} {rest w : List Char} {token : Token}

theorem tokenAt_source (h : n.IsCss) (rest : List Char) :
    ∃ c s, n.source = c :: s ∧ tokenAt c (s ++ rest) = numericToken (n.source ++ rest) := by
  obtain ⟨d, body, hbody, hd⟩ :=
    Numeral.head?_body h.isDecimal (Exponent.source n.exponent ++ rest)
  have hmagnitude := startsMagnitude_cons hd
  have hsource : n.source ++ rest = Sign.source n.sign ++ d :: body := by
    simp [Numeral.source, ← hbody]
  have hne : n.source ≠ [] := by
    intro hnil
    obtain hwhole | hfraction := h.some_digits
    · simp [Numeral.source, hwhole] at hnil
    · obtain ⟨digits, hdigits⟩ := Option.isSome_iff_exists.mp hfraction
      simp [Numeral.source, Numeral.fractionSource, hdigits] at hnil
  obtain ⟨c, s, hcons⟩ := List.exists_cons_of_ne_nil hne
  refine ⟨c, s, hcons, ?_⟩
  rw [hcons, List.cons_append] at hsource ⊢
  cases hsign : n.sign with
  | none =>
    rw [hsign] at hsource
    obtain ⟨rfl, hs⟩ := List.cons.inj hsource
    have hc : ¬(c = '+' ∨ c = '-') := by
      rcases hd with hd | ⟨rfl, -⟩
      · exact not_or.mpr (Numeral.ne_sign_of_isDigit hd)
      · decide
    refine tokenAt_numeral ?_ ?_
    · exact hd.imp id fun hdot => by simp [hdot.1]
    · rw [if_neg hc, hs, hmagnitude, Bool.or_true]
  | some sign =>
    rw [hsign, Sign.source, List.singleton_append] at hsource
    obtain ⟨rfl, hs⟩ := List.cons.inj hsource
    have hc : sign.char = '+' ∨ sign.char = '-' := by cases sign <;> simp [Sign.char]
    refine tokenAt_numeral (.inr ?_) ?_
    · rcases hc with hc | hc <;> simp [hc]
    · rw [if_pos hc, hs, hmagnitude, Bool.or_true]

theorem lexemes_numeral (h : n.IsCss)
    (htoken : numericToken (n.source ++ (w ++ rest)) = (token, n.source.length + w.length)) :
    lexemes (n.source ++ (w ++ rest)) = ⟨token, n.source ++ w⟩ :: lexemes rest := by
  obtain ⟨c, s, hsource, hat⟩ := tokenAt_source h (w ++ rest)
  rw [htoken, ← List.append_assoc] at hat
  rw [hsource, ← List.append_assoc, List.cons_append, List.cons_append]
  refine lexemes_of_tokenAt (hat.trans ?_)
  rw [hsource, List.length_cons, List.length_append]
  congr 1
  omega

theorem lexemes_number (h : n.IsCss) (hrest : EndsNumeral rest) (hpercent : rest.head? ≠ some '%')
    (hname : startsName rest = false) :
    lexemes (n.source ++ rest) = ⟨.number n, n.source⟩ :: lexemes rest := by
  have htoken : numericToken (n.source ++ ([] ++ rest)) = (.number n, n.source.length + 0) := by
    simp [numericToken, Numeral.scan_source_append h hrest false, hpercent, hname]
  simpa using lexemes_numeral h htoken

theorem lexemes_percentage (h : n.IsCss) (rest : List Char) :
    lexemes (n.source ++ ('%' :: rest)) =
      ⟨.percentage n, n.source ++ ['%']⟩ :: lexemes rest := by
  have hends : EndsNumeral ('%' :: rest) := ⟨by simp [isDigit], by simp, by simp [Exponent.scan]⟩
  have htoken : numericToken (n.source ++ (['%'] ++ rest)) =
      (.percentage n, n.source.length + 1) := by
    simp [numericToken, Numeral.scan_source_append h hends false]
  exact lexemes_numeral h htoken

theorem lexemes_dimension (h : n.IsCss) (hw : IsPlainName w) (hrest : EndsName rest)
    (hends : EndsNumeral (w ++ rest)) (hpercent : (w ++ rest).head? ≠ some '%')
    (hname : startsName (w ++ rest) = true) :
    lexemes (n.source ++ (w ++ rest)) =
      ⟨.dimension n (String.ofList w), n.source ++ w⟩ :: lexemes rest := by
  refine lexemes_numeral h ?_
  simp only [numericToken, Numeral.scan_source_append h hends false]
  rw [if_neg hpercent, if_pos hname, readName_append hw hrest]

end

end Css

end ClassStyle
