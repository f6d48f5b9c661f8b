import Mathlib.Data.List.Forall2
import ClassStyle.Proofs.Lookahead

/-!
# Letter case and tokens

How a text is cut into tokens does not depend on the case of its letters (`cased_lexemes`): the
tokens of two texts that are the same but for that are of the same kinds, and their names and
units are the same but for that.
-/

namespace ClassStyle

open Text

-- Sums start with the zero of the core library, also where an algebra library is in scope.
attribute [local instance (high)] Zero.ofOfNat0

/-! ## Characters -/

/-- What is the same for A to Z as for a to z is the same for a character in lower case. -/
theorem apply_lowerChar {α : Type} (f : Char → α)
    (h : ∀ n < 26, f (Char.ofNat (n + 97)) = f (Char.ofNat (n + 65))) (c : Char) :
    f (lowerChar c) = f c := by
  unfold lowerChar
  split
  · next hc =>
    have hlow : 65 ≤ c.toNat := hc.1
    have hhigh : c.toNat ≤ 90 := hc.2
    have hletter := h (c.toNat - 65) (by omega)
    rw [show c.toNat - 65 + 97 = c.toNat + 32 by omega, show c.toNat - 65 + 65 = c.toNat by omega,
      Char.ofNat_toNat] at hletter
    exact hletter
  · rfl

theorem isLetter_lowerChar (c : Char) : isLetter (lowerChar c) = isLetter c :=
  apply_lowerChar isLetter (by decide) c

theorem lowerChar_eq_iff {d : Char} (hd : isLetter d = false) (c : Char) :
    lowerChar c = d ↔ c = d := by
  by_cases hc : 'A' ≤ c ∧ c ≤ 'Z'
  · have hletter : isLetter c = true := by simp [isLetter, hc.1, hc.2]
    constructor
    · rintro rfl
      rw [isLetter_lowerChar, hletter] at hd
      cases hd
    · rintro rfl
      rw [hletter] at hd
      cases hd
  · rw [lowerChar, if_neg hc]

@[simp] theorem isDigit_lowerChar (c : Char) : isDigit (lowerChar c) = isDigit c :=
  apply_lowerChar isDigit (by decide) c

@[simp] theorem hexDigit?_lowerChar (c : Char) : hexDigit? (lowerChar c) = hexDigit? c :=
  apply_lowerChar hexDigit? (by decide) c

@[simp] theorem isHexDigit_lowerChar (c : Char) : isHexDigit (lowerChar c) = isHexDigit c := by
  rw [isHexDigit, hexDigit?_lowerChar, ← isHexDigit]

theorem lowerChar_lowerChar (c : Char) : lowerChar (lowerChar c) = lowerChar c :=
  apply_lowerChar lowerChar (by decide) c

theorem isMarker_lowerChar (c : Char) :
    (lowerChar c = 'e' ∨ lowerChar c = 'E') ↔ (c = 'e' ∨ c = 'E') :=
  iff_of_eq (apply_lowerChar (fun c => c = 'e' ∨ c = 'E') (by decide) c)

/-! ## Texts -/

@[simp] theorem lower_nil : lower [] = [] := rfl

@[simp] theorem lower_cons (c : Char) (s : List Char) :
    lower (c :: s) = lowerChar c :: lower s := rfl

@[simp] theorem length_lower (s : List Char) : (lower s).length = s.length := List.length_map ..

@[simp] theorem lower_take (n : Nat) (s : List Char) : (lower s).take n = lower (s.take n) :=
  List.map_take.symm

@[simp] theorem lower_drop (n : Nat) (s : List Char) : (lower s).drop n = lower (s.drop n) :=
  List.map_drop.symm

@[simp] theorem lower_tail (s : List Char) : (lower s).tail = lower s.tail := by
  cases s <;> rfl

theorem lower_lower (s : List Char) : lower (lower s) = lower s := by
  rw [lower, lower, List.map_map]
  exact List.map_congr_left fun c _ => lowerChar_lowerChar c

theorem lower_append (s t : List Char) : lower (s ++ t) = lower s ++ lower t := List.map_append

theorem lower_eq_nil {s : List Char} : lower s = [] ↔ s = [] := List.map_eq_nil_iff

theorem lower_eq_iff {mark : List Char} (hmark : ∀ e ∈ mark, isLetter e = false) {s : List Char} :
    lower s = mark ↔ s = mark := by
  induction s generalizing mark with
  | nil => rfl
  | cons c s ih =>
    cases mark with
    | nil => simp
    | cons m mark =>
      obtain ⟨hm, hmark⟩ := List.forall_mem_cons.mp hmark
      rw [lower_cons, List.cons.injEq, List.cons.injEq, lowerChar_eq_iff hm, ih hmark]

theorem head?_lower {d : Char} (hd : isLetter d = false) (s : List Char) :
    (lower s).head? = some d ↔ s.head? = some d := by
  cases s with
  | nil => rfl
  | cons c s => simp [lowerChar_eq_iff hd]

section

variable {p : Char → Bool} (hp : ∀ c, p (lowerChar c) = p c) (s : List Char)

include hp

theorem takeWhile_lower : (lower s).takeWhile p = lower (s.takeWhile p) := by
  rw [lower, List.takeWhile_map, show p ∘ lowerChar = p from funext hp]
  rfl

theorem dropWhile_lower : (lower s).dropWhile p = lower (s.dropWhile p) := by
  rw [lower, List.dropWhile_map, show p ∘ lowerChar = p from funext hp]
  rfl

theorem any_head?_lower : (lower s).head?.any p = s.head?.any p := by
  cases s with
  | nil => rfl
  | cons c s => exact hp c

end

theorem digits_lower (s : List Char) : (lower s).takeWhile isDigit = s.takeWhile isDigit := by
  rw [takeWhile_lower isDigit_lowerChar]
  refine List.map_congr_left (fun c hc => ?_) |>.trans (List.map_id _)
  have hdigit : isDigit c = true := List.all_eq_true.mp List.all_takeWhile c hc
  have hcase : ¬('A' ≤ c ∧ c ≤ 'Z') := fun h =>
    absurd (Char.le_trans h.1 (of_decide_eq_true (Bool.and_eq_true_iff.mp hdigit).2)) (by decide)
  rw [lowerChar, if_neg hcase, id]

/-! ## Numerals -/

theorem Sign.scan_lower (s : List Char) :
    Sign.scan (lower s) = ((Sign.scan s).1, lower (Sign.scan s).2) := by
  cases s with
  | nil => rfl
  | cons c s =>
    simp only [lower_cons, Sign.scan, lowerChar_eq_iff (d := '+') rfl,
      lowerChar_eq_iff (d := '-') rfl]
    split
    · rfl
    · split <;> rfl

namespace Numeral

/-- A numeral with its mark of an exponent in lower case. -/
def lowered (n : Numeral) : Numeral :=
  { n with exponent := n.exponent.map fun e => { e with marker := lowerChar e.marker } }

theorem scanFraction_lower (bareDot : Bool) (s : List Char) :
    scanFraction bareDot (lower s) =
      ((scanFraction bareDot s).1, lower (scanFraction bareDot s).2) := by
  cases s with
  | nil => rfl
  | cons c s =>
    simp only [lower_cons, scanFraction, lowerChar_eq_iff (d := '.') rfl, digits_lower,
      dropWhile_lower isDigit_lowerChar]
    split <;> rfl

theorem exponentScan_lower (s : List Char) :
    Exponent.scan (lower s) = ((Exponent.scan s).1.map fun e =>
      { e with marker := lowerChar e.marker }, lower (Exponent.scan s).2) := by
  cases s with
  | nil => rfl
  | cons c s =>
    simp only [lower_cons, Exponent.scan, isMarker_lowerChar, Sign.scan_lower, digits_lower,
      dropWhile_lower isDigit_lowerChar]
    split <;> rfl

theorem scan_lower (bareDot : Bool) (s : List Char) :
    scan bareDot (lower s) =
      (scan bareDot s).map fun found => (found.1.lowered, lower found.2) := by
  simp only [scan, Sign.scan_lower, digits_lower, dropWhile_lower isDigit_lowerChar,
    scanFraction_lower, exponentScan_lower]
  split <;> rfl

theorem length_source_lowered (n : Numeral) : n.lowered.source.length = n.source.length := by
  obtain ⟨sign, whole, fraction, _ | e⟩ := n <;>
    simp [source, lowered, Exponent.source, List.length_append]

theorem eq_of_source {n m : Numeral} (h : n.lowered = m.lowered) (hsource : n.source = m.source) :
    n = m := by
  obtain ⟨sign, whole, fraction, exponent⟩ := n
  obtain ⟨sign', whole', fraction', exponent'⟩ := m
  simp only [lowered, mk.injEq] at h
  obtain ⟨rfl, rfl, rfl, hexponent⟩ := h
  simp only [source] at hsource
  have hexponent' := List.append_cancel_left hsource
  cases exponent with
  | none => cases exponent' <;> simp_all
  | some e =>
    cases exponent' with
    | none => simp at hexponent
    | some e' =>
      obtain ⟨marker, sign, digits⟩ := e
      obtain ⟨marker', sign', digits'⟩ := e'
      simp only [Option.map_some, Option.some.injEq, Exponent.mk.injEq] at hexponent
      obtain ⟨-, rfl, rfl⟩ := hexponent
      simp only [Exponent.source, List.cons_append, List.cons.injEq] at hexponent'
      rw [hexponent'.1]

end Numeral

namespace Css

/-! ## Escapes and names -/

@[simp] theorem isNewline_lowerChar (c : Char) : isNewline (lowerChar c) = isNewline c :=
  apply_lowerChar isNewline (by decide) c

@[simp] theorem isSpace_lowerChar (c : Char) : isSpace (lowerChar c) = isSpace c :=
  apply_lowerChar isSpace (by decide) c

@[simp] theorem isNameStart_lowerChar (c : Char) : isNameStart (lowerChar c) = isNameStart c :=
  apply_lowerChar isNameStart (by decide) c

@[simp] theorem isNameChar_lowerChar (c : Char) : isNameChar (lowerChar c) = isNameChar c :=
  apply_lowerChar isNameChar (by decide) c

@[simp] theorem breaksUrl_lowerChar (c : Char) : breaksUrl (lowerChar c) = breaksUrl c :=
  apply_lowerChar breaksUrl (by decide) c

@[simp] theorem startsWithNewline_lower (s : List Char) :
    startsWithNewline (lower s) = startsWithNewline s := any_head?_lower isNewline_lowerChar s

@[simp] theorem spaceLength_lower : ∀ s : List Char, spaceLength (lower s) = spaceLength s
  | [] => rfl
  | [c] => by simp [spaceLength]
  | c :: d :: s => by
    simp [spaceLength, lowerChar_eq_iff (d := '\r') rfl, lowerChar_eq_iff (d := '\n') rfl]

theorem hexDigits_lower (s : List Char) :
    ((lower s).take 6).takeWhile isHexDigit = lower ((s.take 6).takeWhile isHexDigit) := by
  rw [lower_take, takeWhile_lower isHexDigit_lowerChar]

theorem hexValue_lower (digits : List Char) : hexValue (lower digits) = hexValue digits := by
  rw [hexValue, lower, List.foldl_map]
  simp only [hexDigit?_lowerChar]
  rfl

section

variable {s t : List Char} (h : lower s = lower t)

include h

theorem escape_cased : lowerChar (escape s).1 = lowerChar (escape t).1 ∧
    (escape s).2 = (escape t).2 ∧
    (s.take (escape s).2 = t.take (escape s).2 → (escape s).1 = (escape t).1) := by
  cases s with
  | nil => rw [lower_nil, eq_comm, lower_eq_nil] at h; subst h; simp
  | cons c s =>
    cases t with
    | nil => simp at h
    | cons d t =>
      have hdigits := hexDigits_lower (c :: s)
      rw [h, hexDigits_lower] at hdigits
      have hlength := congrArg List.length hdigits
      have hvalue := congrArg hexValue hdigits
      rw [length_lower, length_lower] at hlength
      rw [hexValue_lower, hexValue_lower] at hvalue
      have hspace : ∀ n, spaceLength ((c :: s).drop n) = spaceLength ((d :: t).drop n) := by
        intro n
        rw [← spaceLength_lower, ← lower_drop, h, lower_drop, spaceLength_lower]
      have hnil := lower_eq_nil (s := ((c :: s).take 6).takeWhile isHexDigit)
      rw [← hdigits, lower_eq_nil] at hnil
      simp only [escape, hnil, hlength, hvalue, hspace]
      simp only [lower_cons, List.cons.injEq] at h
      split
      · next hnone =>
        have hzero : c = '\x00' ↔ d = '\x00' := by
          rw [← lowerChar_eq_iff (d := '\x00') rfl, h.1, lowerChar_eq_iff rfl]
        refine ⟨?_, rfl, ?_⟩
        · simp only [hzero]
          split
          · rfl
          · exact h.1
        · simp only [List.take_succ_cons, List.take_zero, List.cons.injEq, and_true]
          rintro rfl
          rfl
      · exact ⟨rfl, rfl, fun _ => rfl⟩

omit h in
/-- A character of a name in lower case, with the length of its source. -/
def loweredChar (d : Char × Nat) : Char × Nat := (lowerChar d.1, d.2)

theorem startsWithNewline_cased : startsWithNewline s = startsWithNewline t := by
  rw [← startsWithNewline_lower, h, startsWithNewline_lower]

theorem nameChar?_cased : (nameChar? s).map loweredChar = (nameChar? t).map loweredChar ∧
    ∀ d ∈ nameChar? s, s.take d.2 = t.take d.2 → nameChar? t = some d := by
  cases s with
  | nil => rw [lower_nil, eq_comm, lower_eq_nil] at h; subst h; simp [nameChar?]
  | cons c s =>
    cases t with
    | nil => simp at h
    | cons c' t =>
      simp only [lower_cons, List.cons.injEq] at h
      obtain ⟨hc, h⟩ := h
      have hbackslash : c = '\\' ↔ c' = '\\' := by
        rw [← lowerChar_eq_iff (d := '\\') rfl, hc, lowerChar_eq_iff rfl]
      have hzero : c = '\x00' ↔ c' = '\x00' := by
        rw [← lowerChar_eq_iff (d := '\x00') rfl, hc, lowerChar_eq_iff rfl]
      have hname : isNameChar c = isNameChar c' := by
        rw [← isNameChar_lowerChar, hc, isNameChar_lowerChar]
      obtain ⟨hchar, hlength, hsame⟩ := escape_cased h
      simp only [nameChar?, startsWithNewline_cased h, hbackslash, hname]
      split
      · split
        · simp
        · refine ⟨by simp [loweredChar, hchar, hlength], ?_⟩
          rintro _ ⟨⟩ htake
          simp only [List.take_succ_cons, List.cons.injEq] at htake
          rw [Prod.ext (hsame htake.2) hlength]
      · split
        · refine ⟨?_, ?_⟩
          · simp only [Option.map_some, loweredChar, hzero]
            split
            · rfl
            · rw [hc]
          · rintro _ ⟨⟩ htake
            simp only [List.take_succ_cons, List.take_zero, List.cons.injEq, and_true] at htake
            rw [htake]
        · simp

theorem nameChars_cased (skip : Nat) :
    (nameChars skip s).map loweredChar = (nameChars skip t).map loweredChar ∧
    (s.take (skip + ((nameChars skip s).map Prod.snd).sum) =
        t.take (skip + ((nameChars skip s).map Prod.snd).sum) →
      nameChars skip s = nameChars skip t) := by
  induction s generalizing t skip with
  | nil => rw [lower_nil, eq_comm, lower_eq_nil] at h; subst h; simp
  | cons c s ih =>
    cases t with
    | nil => simp at h
    | cons c' t =>
      have hrest : lower s = lower t := (List.cons.inj h).2
      cases skip with
      | succ skip =>
        obtain ⟨hlow, hsame⟩ := ih hrest skip
        refine ⟨hlow, fun htake => hsame ?_⟩
        rw [nameChars, Nat.succ_add, List.take_succ_cons, List.take_succ_cons] at htake
        exact (List.cons.inj htake).2
      | zero =>
        obtain ⟨hchar, hcharSame⟩ := nameChar?_cased h
        rw [nameChars, nameChars]
        cases hd : nameChar? (c :: s) with
        | none =>
          rw [hd, Option.map_none, eq_comm, Option.map_eq_none_iff] at hchar
          rw [hchar]
          exact ⟨rfl, fun _ => rfl⟩
        | some d =>
          rw [hd, Option.map_some, eq_comm, Option.map_eq_some_iff] at hchar
          obtain ⟨d', hd', hlow⟩ := hchar
          obtain ⟨hlowRest, hsame⟩ := ih hrest (d.2 - 1)
          have hlength : d'.2 = d.2 := (Prod.ext_iff.mp hlow).2
          have hpos := length_nameChar?_pos hd
          rw [hd']
          refine ⟨?_, fun htake => ?_⟩
          · exact List.cons_eq_cons.mpr ⟨hlow.symm, by rw [hlowRest, hlength]⟩
          · simp only [List.map_cons, List.sum_cons, Nat.zero_add] at htake
            have hfirst := congrArg (List.take d.2) htake
            rw [List.take_take, List.take_take, Nat.min_eq_left (Nat.le_add_right ..)] at hfirst
            obtain rfl := Option.some.inj (hd'.symm.trans (hcharSame d hd hfirst))
            have hmore := congrArg (List.drop 1) htake
            rw [List.drop_take, List.drop_take, List.drop_one, List.tail_cons, List.drop_one,
              List.tail_cons] at hmore
            simp only
            rw [hsame (by rwa [show ∀ n, d'.2 - 1 + n = d'.2 + n - 1 by omega])]

theorem readName_cased :
    lowerString (readName s).1 = lowerString (readName t).1 ∧ (readName s).2 = (readName t).2 ∧
    (s.take (readName s).2 = t.take (readName s).2 → (readName s).1 = (readName t).1) := by
  obtain ⟨hlow, hsame⟩ := nameChars_cased h 0
  rw [Nat.zero_add] at hsame
  refine ⟨?_, ?_, fun htake => ?_⟩
  · have hnames := congrArg (List.map Prod.fst) hlow
    rw [List.map_map, List.map_map] at hnames
    simp only [readName, lowerString, String.toList_ofList, lower, List.map_map]
    exact congrArg String.ofList hnames
  · have hlengths := congrArg (List.map Prod.snd) hlow
    rw [List.map_map, List.map_map] at hlengths
    exact congrArg List.sum hlengths
  · rw [readName, readName, hsame htake]

theorem startsName_cased : startsName s = startsName t := by
  cases s with
  | nil => rw [lower_nil, eq_comm, lower_eq_nil] at h; subst h; rfl
  | cons c s =>
    cases t with
    | nil => simp at h
    | cons c' t =>
      simp only [lower_cons, List.cons.injEq] at h
      obtain ⟨hc, h⟩ := h
      have hstart : ∀ d, (isNameStart (lowerChar d) || lowerChar d = '-' || lowerChar d = '\\') =
          (isNameStart d || d = '-' || d = '\\') := by
        intro d
        simp [lowerChar_eq_iff (d := '-') rfl, lowerChar_eq_iff (d := '\\') rfl]
      have hhead := @any_head?_lower (fun d => isNameStart d || d = '-' || d = '\\') hstart
      have hfirst : ∀ d, isLetter d = false → (c = d ↔ c' = d) := fun d hd => by
        rw [← lowerChar_eq_iff hd, hc, lowerChar_eq_iff hd]
      simp only [startsName, hfirst '-' rfl, hfirst '\\' rfl, startsWithNewline_cased h]
      rw [← hhead, h, hhead, ← isNameStart_lowerChar, hc, isNameStart_lowerChar]

end

/-! ## Extents -/

theorem escapeLength_lower (s : List Char) : (escape (lower s)).2 = (escape s).2 :=
  (escape_cased (lower_lower s)).2.1

theorem stringEscapeLength_lower (s : List Char) :
    stringEscapeLength (lower s) = stringEscapeLength s := by
  simp only [stringEscapeLength, startsWithNewline_lower, spaceLength_lower, escapeLength_lower]

theorem stringLength_lower {quote : Char} (hquote : isLetter quote = false) (skip : Nat)
    (s : List Char) : stringLength quote skip (lower s) = stringLength quote skip s := by
  induction s generalizing skip with
  | nil => rfl
  | cons c s ih =>
    cases skip with
    | succ skip => simp only [lower_cons, stringLength, ih]
    | zero =>
      simp only [lower_cons, stringLength, lowerChar_eq_iff hquote, isNewline_lowerChar,
        lowerChar_eq_iff (d := '\\') rfl, stringEscapeLength_lower, ih]

theorem commentLength_lower : ∀ s : List Char, commentLength (lower s) = commentLength s
  | [] => rfl
  | [_] => rfl
  | c :: d :: s => by
    have hrest := commentLength_lower (d :: s)
    simp only [lower_cons] at hrest
    simp only [lower_cons, commentLength, lowerChar_eq_iff (d := '*') rfl,
      lowerChar_eq_iff (d := '/') rfl, hrest]

theorem badUrlLength_lower (skip : Nat) (s : List Char) :
    badUrlLength skip (lower s) = badUrlLength skip s := by
  induction s generalizing skip with
  | nil => rfl
  | cons c s ih =>
    cases skip with
    | succ skip => simp only [lower_cons, badUrlLength, ih]
    | zero =>
      simp only [lower_cons, badUrlLength, lowerChar_eq_iff (d := ')') rfl,
        lowerChar_eq_iff (d := '\\') rfl, head?_lower (d := ')') rfl,
        head?_lower (d := '\\') rfl, ih]

theorem urlEndLength_lower (s : List Char) : urlEndLength (lower s) = urlEndLength s := by
  induction s with
  | nil => rfl
  | cons c s ih =>
    simp only [lower_cons, urlEndLength, lowerChar_eq_iff (d := ')') rfl, isSpace_lowerChar,
      badUrlLength_lower, ih]

theorem urlLength_lower (skip : Nat) (s : List Char) :
    urlLength skip (lower s) = urlLength skip s := by
  induction s generalizing skip with
  | nil => rfl
  | cons c s ih =>
    cases skip with
    | succ skip => simp only [lower_cons, urlLength, ih]
    | zero =>
      simp only [lower_cons, urlLength, lowerChar_eq_iff (d := ')') rfl, isSpace_lowerChar,
        breaksUrl_lowerChar, lowerChar_eq_iff (d := '\\') rfl, startsWithNewline_lower,
        badUrlLength_lower, urlEndLength_lower, escapeLength_lower, ih]

theorem unquotedUrlLength?_lower (s : List Char) :
    unquotedUrlLength? (lower s) = unquotedUrlLength? s := by
  simp only [unquotedUrlLength?, takeWhile_lower isSpace_lowerChar, length_lower, lower_drop,
    head?_lower (d := '"') rfl, head?_lower (d := '\'') rfl, urlLength_lower]

theorem startsWithDigit_lower (s : List Char) : startsWithDigit (lower s) = startsWithDigit s :=
  any_head?_lower isDigit_lowerChar s

theorem startsMagnitude_lower (s : List Char) : startsMagnitude (lower s) = startsMagnitude s := by
  simp only [startsMagnitude, startsWithDigit_lower, head?_lower (d := '.') rfl, lower_tail]

/-! ## Tokens -/

/-- A token with all its letters in lower case. -/
def Token.lowered : Token → Token
  | .ident name => .ident (lowerString name)
  | .function name => .function (lowerString name)
  | .atKeyword name => .atKeyword (lowerString name)
  | .hash name => .hash (lowerString name)
  | .number n => .number n.lowered
  | .percentage n => .percentage n.lowered
  | .dimension n unit => .dimension n.lowered (lowerString unit)
  | .delimiter c => .delimiter (lowerChar c)
  | t => t

/-- Tokens at the front of two texts, with their lengths, are the same but for letter case, and
the same where their texts are. -/
structure Cased (s t : List Char) (x y : Token × Nat) : Prop where
  lowered : x.1.lowered = y.1.lowered
  length : x.2 = y.2
  same : s.take x.2 = t.take x.2 → x.1 = y.1

namespace Cased

variable {s t : List Char}

theorem const (token : Token) {m n : Nat} (h : m = n) : Cased s t (token, m) (token, n) :=
  ⟨rfl, h, fun _ => rfl⟩

theorem ite {x y x' y' : Token × Nat} {p q : Prop} [Decidable p] [Decidable q] (hpq : p ↔ q)
    (hx : p → q → Cased s t x y) (hy : ¬p → ¬q → Cased s t x' y') :
    Cased s t (if p then x else x') (if q then y else y') := by
  by_cases hp : p
  · rw [if_pos hp, if_pos (hpq.mp hp)]
    exact hx hp (hpq.mp hp)
  · rw [if_neg hp, if_neg fun hq => hp (hpq.mpr hq)]
    exact hy hp fun hq => hp (hpq.mpr hq)

theorem delimiter {c d : Char} (h : lowerChar c = lowerChar d) :
    Cased (c :: s) (d :: t) (.delimiter c, 1) (.delimiter d, 1) where
  lowered := by simp only [Token.lowered, h]
  length := rfl
  same h := by
    simp only [List.take_succ_cons, List.take_zero, List.cons.injEq, and_true] at h
    rw [h]

end Cased

section

variable {s t : List Char} (h : lower s = lower t)

include h

theorem head?_cased {d : Char} (hd : isLetter d = false) : s.head? = some d ↔ t.head? = some d := by
  rw [← head?_lower hd, h, head?_lower hd]

theorem take_cased (n : Nat) {mark : List Char} (hmark : ∀ e ∈ mark, isLetter e = false) :
    s.take n = mark ↔ t.take n = mark := by
  rw [← lower_eq_iff hmark, ← lower_take, h, lower_take, lower_eq_iff hmark]

theorem markedName_cased {c d : Char} {make : String → Token}
    (hmake : ∀ name, (make name).lowered = make (lowerString name)) :
    Cased (c :: s) (d :: t) (make (readName s).1, (readName s).2 + 1)
      (make (readName t).1, (readName t).2 + 1) := by
  obtain ⟨hname, hlength, hsame⟩ := readName_cased h
  refine ⟨by simp only [hmake, hname], by rw [hlength], fun hk => ?_⟩
  rw [List.take_succ_cons, List.take_succ_cons] at hk
  rw [hsame (List.cons.inj hk).2]

theorem numericToken_cased : Cased s t (numericToken s) (numericToken t) := by
  have hscan := Numeral.scan_lower false s
  rw [h, Numeral.scan_lower] at hscan
  unfold numericToken
  cases hs : Numeral.scan false s with
  | none =>
    rw [hs, Option.map_none, Option.map_eq_none_iff] at hscan
    rw [hscan]
    exact .const .mark rfl
  | some found =>
    obtain ⟨n, rest⟩ := found
    rw [hs, Option.map_some, Option.map_eq_some_iff] at hscan
    obtain ⟨⟨n', rest'⟩, ht, hsame⟩ := hscan
    obtain ⟨hlow, hrest⟩ := Prod.mk.inj hsame
    have hlength : n.source.length = n'.source.length := by
      rw [← Numeral.length_source_lowered, ← hlow, Numeral.length_source_lowered]
    obtain ⟨hunit, hunitLength, hunitSame⟩ := readName_cased hrest.symm
    have hsource := Numeral.source_append_of_scan hs
    have hsource' := Numeral.source_append_of_scan ht
    -- The texts of the numerals are as long as each other, so they are the fronts of both texts.
    have htake : ∀ k, s.take (n.source.length + k) = t.take (n.source.length + k) →
        n = n' ∧ rest.take k = rest'.take k := by
      intro k hk
      have hs : s.take (n.source.length + k) = n.source ++ rest.take k := by
        rw [← hsource, List.take_length_add_append]
      have ht : t.take (n.source.length + k) = n'.source ++ rest'.take k := by
        rw [← hsource', hlength, List.take_length_add_append]
      rw [hs, ht] at hk
      obtain ⟨hn, hr⟩ := List.append_inj hk hlength
      exact ⟨Numeral.eq_of_source hlow.symm hn, hr⟩
    rw [ht]
    refine .ite (head?_cased hrest.symm rfl) (fun _ _ => ?_) fun _ _ => .ite ?_ (fun _ _ => ?_)
      fun _ _ => ?_
    · refine ⟨by simp only [Token.lowered, hlow], by rw [hlength], fun hk => ?_⟩
      rw [(htake 1 hk).1]
    · rw [startsName_cased hrest.symm]
    · refine ⟨?_, ?_, fun hk => ?_⟩
      · simp only [Token.lowered, hlow, hunit]
      · simp only [hlength, hunitLength]
      · obtain ⟨hn, hr⟩ := htake _ hk
        simp only [hn, hunitSame hr]
    · refine ⟨by simp only [Token.lowered, hlow], hlength, fun hk => ?_⟩
      rw [(htake 0 hk).1]

theorem nameToken_cased : Cased s t (nameToken s) (nameToken t) := by
  obtain ⟨hname, hlength, hsame⟩ := readName_cased h
  have hdrop : ∀ n, lower (s.drop n) = lower (t.drop n) := fun n => by
    rw [← lower_drop, h, lower_drop]
  have hfront : ∀ k, s.take ((readName s).2 + k) = t.take ((readName s).2 + k) →
      (readName s).1 = (readName t).1 := fun k hk => hsame (by
    have := congrArg (List.take (readName s).2) hk
    rwa [List.take_take, List.take_take, Nat.min_eq_left (Nat.le_add_right ..)] at this)
  have hurl : unquotedUrlLength? (s.drop (readName t).2).tail =
      unquotedUrlLength? (t.drop (readName t).2).tail := by
    rw [← unquotedUrlLength?_lower, ← lower_tail, hdrop, lower_tail, unquotedUrlLength?_lower]
  have hfunction : Cased s t (.function (readName s).1, (readName s).2 + 1)
      (.function (readName t).1, (readName t).2 + 1) :=
    ⟨by simp only [Token.lowered, hname], by rw [hlength], fun hk => by rw [hfront 1 hk]⟩
  unfold nameToken
  dsimp only
  rw [hlength]
  refine .ite (head?_cased (hdrop _) rfl) (fun _ _ => .ite (by rw [hname]) (fun _ _ => ?_)
    fun _ _ => hlength ▸ hfunction) fun _ _ => ?_
  · rw [hurl]
    cases unquotedUrlLength? (t.drop (readName t).2).tail with
    | none => exact hlength ▸ hfunction
    | some length => exact .const .url rfl
  · exact ⟨by simp only [Token.lowered, hname], rfl, fun hk => by
      rw [hfront 0 (by rwa [hlength])]⟩

end

theorem tokenAt_cased {c d : Char} {s t : List Char} (hc : lowerChar c = lowerChar d)
    (h : lower s = lower t) : Cased (c :: s) (d :: t) (tokenAt c s) (tokenAt d t) := by
  have hchar : ∀ {e}, isLetter e = false → (c = e ↔ d = e) := fun he => by
    rw [← lowerChar_eq_iff he, hc, lowerChar_eq_iff he]
  have hall : lower (c :: s) = lower (d :: t) := by rw [lower_cons, lower_cons, hc, h]
  have hmagnitude : startsMagnitude s = startsMagnitude t := by
    rw [← startsMagnitude_lower, h, startsMagnitude_lower]
  have hmagnitude' : startsMagnitude (c :: s) = startsMagnitude (d :: t) := by
    rw [← startsMagnitude_lower, hall, startsMagnitude_lower]
  unfold tokenAt
  refine .ite (by rw [← isSpace_lowerChar, hc, isSpace_lowerChar]) (fun _ _ => .const _ ?_)
    fun _ _ => ?_
  · rw [← length_lower, ← takeWhile_lower isSpace_lowerChar, h, takeWhile_lower isSpace_lowerChar,
      length_lower]
  refine .ite (by rw [hchar rfl, hchar rfl]) (fun hquote _ => .const _ ?_) fun _ _ => ?_
  · have hletter : isLetter c = false := by rcases hquote with rfl | rfl <;> rfl
    rw [(hchar hletter).mp rfl, ← stringLength_lower ((hchar hletter).mp rfl ▸ hletter), h,
      stringLength_lower ((hchar hletter).mp rfl ▸ hletter)]
  refine .ite (by rw [hchar rfl, head?_cased h rfl]) (fun _ _ => .const _ ?_) fun _ _ => ?_
  · rw [← commentLength_lower, ← lower_tail, h, lower_tail, commentLength_lower]
  iterate 9 refine .ite (hchar rfl) (fun _ _ => .const _ rfl) fun _ _ => ?_
  refine .ite (hchar rfl) (fun _ _ => .ite ?_ (fun _ _ => markedName_cased h fun _ => rfl)
    fun _ _ => .delimiter hc) fun _ _ => ?_
  · have hdigit : startsWithDigit s = startsWithDigit t := by
      rw [← startsWithDigit_lower, h, startsWithDigit_lower]
    simp only [Bool.or_eq_true, decide_eq_true_eq, startsName_cased h, hdigit,
      head?_cased h (d := '-') rfl]
  refine .ite (hchar rfl) (fun _ _ => .ite (by rw [startsName_cased h])
    (fun _ _ => markedName_cased h fun _ => rfl) fun _ _ => .delimiter hc) fun _ _ => ?_
  refine .ite (by simp only [hchar (e := '$') rfl, hchar (e := '*') rfl, hchar (e := '^') rfl,
    hchar (e := '|') rfl, hchar (e := '~') rfl]) (fun _ _ => .ite (head?_cased h rfl)
      (fun _ _ => .const _ rfl) fun _ _ => .delimiter hc) fun _ _ => ?_
  refine .ite (by rw [hchar rfl, take_cased h 3 (forall_mem_of_all (by decide))])
    (fun _ _ => .const _ rfl) fun _ _ => ?_
  refine .ite ?_ (fun _ _ => numericToken_cased hall) fun _ _ => ?_
  · rw [← isDigit_lowerChar, hc, isDigit_lowerChar]
    simp only [hchar (e := '+') rfl, hchar (e := '-') rfl]
    split
    · rw [hmagnitude]
    · rw [hmagnitude']
  refine .ite (by rw [hchar rfl, take_cased h 2 (forall_mem_of_all (by decide))])
    (fun _ _ => .const _ rfl) fun _ _ => ?_
  exact .ite (by rw [startsName_cased hall]) (fun _ _ => nameToken_cased hall)
    fun _ _ => .delimiter hc

/-! ## Lexemes -/

/-- Lexemes of two texts are the same but for letter case, and the same where their texts are. -/
structure Lexeme.Cased (l l' : Lexeme) : Prop where
  lowered : l.token.lowered = l'.token.lowered
  source : lower l.source = lower l'.source
  same : l.source = l'.source → l.token = l'.token

theorem lexemeAt_cased {c d : Char} {s t : List Char} (hc : lowerChar c = lowerChar d)
    (h : lower s = lower t) : (lexemeAt c s).Cased (lexemeAt d t) := by
  obtain ⟨hlow, hlength, hsame⟩ := tokenAt_cased hc h
  refine ⟨hlow, ?_, fun hsource => hsame ?_⟩
  · simp only [lexemeAt, lower_cons, hc, ← lower_take, h, hlength]
  · simp only [lexemeAt, hlength] at hsource
    cases hn : (tokenAt c s).2 with
    | zero => rfl
    | succ n =>
      rw [← hlength, hn, Nat.add_sub_cancel] at hsource
      rw [List.take_succ_cons, List.take_succ_cons]
      exact hsource

/-- Texts that are the same but for letter case are cut in the same places. -/
theorem cased_lexemes {s t : List Char} (h : lower s = lower t) :
    List.Forall₂ Lexeme.Cased (lexemes s) (lexemes t) := by
  match s, t with
  | [], [] => exact .nil
  | [], _ :: _ => simp at h
  | _ :: _, [] => simp at h
  | c :: s, d :: t =>
    obtain ⟨hc, h⟩ := List.cons.inj h
    have hfirst := lexemeAt_cased hc h
    have hlength := congrArg List.length hfirst.source
    rw [length_lower, length_lower] at hlength
    rw [lexemes_cons, lexemes_cons, hlength]
    exact .cons hfirst (cased_lexemes (by rw [← lower_drop, ← lower_drop]; exact congrArg _ h))
termination_by s.length

end Css

end ClassStyle
