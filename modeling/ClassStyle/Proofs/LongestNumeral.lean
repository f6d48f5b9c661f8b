import ClassStyle.Proofs.Notations
import ClassStyle.Proofs.Quantities

/-!
# The longest numeral at the front of a word

A word is split behind the longest numeral that it starts with (`splitNumeral_longest`). That
numeral is a number, so each word that starts with one is a length. The split is where a cursor over
the bytes of the word stops, which is never inside a character.
-/

namespace ClassStyle

open Text

/-! ## Numerals with a text behind them -/

section

variable {digits : List Char} (h : ∀ c ∈ digits, isDigit c = true)

include h

theorem takeWhile_digits_append (rest : List Char) :
    (digits ++ rest).takeWhile isDigit = digits ++ rest.takeWhile isDigit ∧
      (digits ++ rest).dropWhile isDigit = rest.dropWhile isDigit :=
  ⟨List.takeWhile_append_of_pos h, List.dropWhile_append_of_pos h⟩

theorem Numeral.scanFraction_digits {bareDot : Bool} (hdot : digits ≠ [] ∨ bareDot = true)
    (rest : List Char) :
    scanFraction bareDot (fractionSource (some digits) ++ rest) =
      (some (digits ++ rest.takeWhile isDigit), rest.dropWhile isDigit) := by
  obtain ⟨htake, hdrop⟩ := takeWhile_digits_append h rest
  rw [fractionSource, List.cons_append, scanFraction, htake, hdrop]
  refine if_pos ⟨rfl, hdot.imp_left fun hne hnil => hne ?_⟩
  exact (List.append_eq_nil_iff.mp hnil).1

theorem Exponent.scan_digits {marker : Char} (hmarker : marker = 'e' ∨ marker = 'E')
    (hne : digits ≠ []) (sign : Option Sign) (rest : List Char) :
    scan (source (some ⟨marker, sign, digits⟩) ++ rest) =
      (some ⟨marker, sign, digits ++ rest.takeWhile isDigit⟩, rest.dropWhile isDigit) := by
  obtain ⟨htake, hdrop⟩ := takeWhile_digits_append h rest
  have hhead : ∀ c ∈ (digits ++ rest).head?, c ≠ '+' ∧ c ≠ '-' := by
    obtain ⟨d, ds, rfl⟩ := List.exists_cons_of_ne_nil hne
    rintro c hc
    obtain rfl := Option.mem_some_iff.mp hc
    exact Numeral.ne_sign_of_isDigit (h d List.mem_cons_self)
  have hsource : source (some ⟨marker, sign, digits⟩) ++ rest =
      marker :: (Sign.source sign ++ (digits ++ rest)) := by
    simp [source]
  rw [hsource, scan, Numeral.scan_sign_body sign hhead]
  simp only [htake, hdrop]
  rw [if_pos ⟨hmarker, by simp [hne]⟩]

end

theorem Exponent.source_continued (e : Exponent) (more : List Char) :
    source (some e) <+: source (some { e with digits := e.digits ++ more }) :=
  ⟨more, by simp [source]⟩

theorem Exponent.takeWhile_source {e : Exponent} (hmarker : e.marker = 'e' ∨ e.marker = 'E')
    (rest : List Char) :
    (source (some e) ++ rest).takeWhile isDigit = [] ∧
      (source (some e) ++ rest).dropWhile isDigit = source (some e) ++ rest ∧
      ∀ bareDot, Numeral.scanFraction bareDot (source (some e) ++ rest) =
        (none, source (some e) ++ rest) := by
  obtain ⟨marker, sign, digits⟩ := e
  simp only at hmarker
  rcases hmarker with rfl | rfl <;> simp [source, Numeral.scanFraction, isDigit]

namespace Numeral

variable {sign : Option Sign} {whole s b t left : List Char} {fraction : Option (List Char)}
  {exponent : Option Exponent}

theorem scan_eq_some (hhead : ∀ c ∈ (b ++ t).head?, c ≠ '+' ∧ c ≠ '-')
    (hwhole : (b ++ t).takeWhile isDigit = whole)
    (hfraction : scanFraction (true && !whole.isEmpty) ((b ++ t).dropWhile isDigit) = (fraction, s))
    (hexponent : Exponent.scan s = (exponent, left)) (hsome : whole ≠ [] ∨ fraction ≠ none) :
    scan true (Sign.source sign ++ (b ++ t)) =
      some (⟨sign, whole, fraction, exponent⟩, left) := by
  simp only [scan, scan_sign_body sign hhead, hwhole, hfraction, hexponent]
  exact if_neg fun hnone => hsome.elim (· hnone.1) (· hnone.2)

section

variable (hwhole : ∀ c ∈ whole, isDigit c = true)
  (hexponent : ∀ e ∈ exponent, (e.marker = 'e' ∨ e.marker = 'E') ∧ e.digits ≠ [] ∧
    ∀ c ∈ e.digits, isDigit c = true)

include hwhole hexponent

theorem exists_scan_whole (hne : whole ≠ []) (rest : List Char)
    (hhead : ∀ c ∈ (whole ++ (Exponent.source exponent ++ rest)).head?, c ≠ '+' ∧ c ≠ '-') :
    ∃ m left, scan true (Sign.source sign ++ (whole ++ (Exponent.source exponent ++ rest))) =
      some (m, left) ∧ source ⟨sign, whole, none, exponent⟩ <+: m.source := by
  obtain ⟨htake, hdrop⟩ := takeWhile_digits_append hwhole (Exponent.source exponent ++ rest)
  cases exponent with
  | none =>
    refine ⟨_, _, scan_eq_some hhead htake rfl rfl (.inl (by simp [hne])), ?_⟩
    simp only [source, fractionSource, Exponent.source, List.append_nil, List.append_assoc]
    exact (List.prefix_append_right_inj _).mpr (List.prefix_append _ _)
  | some e =>
    obtain ⟨hmarker, hdigits, hall⟩ := hexponent e rfl
    obtain ⟨hnone, hself, hfree⟩ := Exponent.takeWhile_source hmarker rest
    rw [hnone, List.append_nil] at htake
    rw [hself] at hdrop
    refine ⟨_, _, scan_eq_some hhead htake (by rw [hdrop, hfree])
      (Exponent.scan_digits hall hmarker hdigits e.sign rest) (.inl hne), ?_⟩
    exact (List.prefix_append_right_inj _).mpr (e.source_continued _)

theorem exists_scan_fraction {digits : List Char} (hfraction : ∀ c ∈ digits, isDigit c = true)
    (hsome : whole ≠ [] ∨ digits ≠ []) (rest : List Char)
    (hhead : ∀ c ∈ (whole ++ (fractionSource (some digits) ++
      (Exponent.source exponent ++ rest))).head?, c ≠ '+' ∧ c ≠ '-') :
    ∃ m left, scan true (Sign.source sign ++ (whole ++ (fractionSource (some digits) ++
        (Exponent.source exponent ++ rest)))) = some (m, left) ∧
      source ⟨sign, whole, some digits, exponent⟩ <+: m.source := by
  obtain ⟨htake, hdrop⟩ := takeWhile_digits_append hwhole
    (fractionSource (some digits) ++ (Exponent.source exponent ++ rest))
  have hdot : digits ≠ [] ∨ (true && !whole.isEmpty) = true :=
    hsome.symm.imp id fun hne => by simp [hne]
  have hscan := scanFraction_digits hfraction hdot (Exponent.source exponent ++ rest)
  have htake : _ = whole ++ [] := htake
  have hdrop : _ = fractionSource (some digits) ++ (Exponent.source exponent ++ rest) := hdrop
  rw [List.append_nil] at htake
  cases exponent with
  | none =>
    refine ⟨_, _, scan_eq_some hhead htake (hdrop ▸ hscan) rfl
      (.inr (Option.some_ne_none _)), ?_⟩
    simp only [source, fractionSource, Exponent.source, List.append_nil, List.append_assoc,
      List.nil_append, List.cons_append]
    refine (List.prefix_append_right_inj _).mpr ((List.prefix_append_right_inj _).mpr ?_)
    exact List.cons_prefix_cons.mpr ⟨rfl, List.prefix_append _ _⟩
  | some e =>
    obtain ⟨hmarker, hdigits, hall⟩ := hexponent e rfl
    obtain ⟨hnone, hself, -⟩ := Exponent.takeWhile_source hmarker rest
    rw [hnone, hself, List.append_nil] at hscan
    refine ⟨_, _, scan_eq_some hhead htake (hdrop ▸ hscan)
      (Exponent.scan_digits hall hmarker hdigits e.sign rest) (.inr (Option.some_ne_none _)), ?_⟩
    exact (List.prefix_append_right_inj _).mpr (e.source_continued _)

end

variable {n : Numeral}

theorem exists_scan_append (h : n.IsDecimal) (rest : List Char) :
    ∃ m left, scan true (n.source ++ rest) = some (m, left) ∧ n.source <+: m.source := by
  obtain ⟨d, body, hbody, hd⟩ := head?_body h (Exponent.source n.exponent ++ rest)
  have hhead : ∀ c ∈ (n.whole ++ (fractionSource n.fraction ++
      (Exponent.source n.exponent ++ rest))).head?, c ≠ '+' ∧ c ≠ '-' := by
    intro c hc
    rw [hbody, List.head?_cons, Option.mem_some_iff] at hc
    subst hc
    rcases hd with hd | ⟨rfl, -⟩
    · exact ne_sign_of_isDigit hd
    · decide
  clear hbody hd
  have hsource : n.source ++ rest = Sign.source n.sign ++ (n.whole ++ (fractionSource n.fraction ++
      (Exponent.source n.exponent ++ rest))) := by
    simp [source]
  rw [hsource]
  obtain ⟨sign, whole, fraction, exponent⟩ := n
  obtain ⟨hwhole, hfraction, hexponent, hsome⟩ := h
  cases fraction with
  | none =>
    exact exists_scan_whole hwhole hexponent (hsome.resolve_right (not_not_intro rfl)) rest hhead
  | some digits =>
    exact exists_scan_fraction hwhole hexponent (hfraction digits rfl) hsome rest hhead

end Numeral

/-! ## Words that start with a numeral -/

theorem splitNumeral_cases (word : List Char) :
    (∃ n : Numeral, n.IsDecimal ∧ (Length.splitNumeral word).1 = n.source ∧
        ∀ m : Numeral, m.IsDecimal → m.source <+: word → m.source <+: n.source) ∨
      (Length.splitNumeral word).1 = [] ∧ ∀ m : Numeral, m.IsDecimal → ¬m.source <+: word := by
  have hfound : ∀ m : Numeral, m.IsDecimal → m.source <+: word →
      ∃ n left, Numeral.scan true word = some (n, left) ∧ m.source <+: n.source := by
    rintro m hm ⟨rest, rfl⟩
    exact Numeral.exists_scan_append hm rest
  unfold Length.splitNumeral
  cases hscan : Numeral.scan true word with
  | none =>
    refine .inr ⟨rfl, fun m hm hfront => ?_⟩
    obtain ⟨n, left, hsome, -⟩ := hfound m hm hfront
    rw [hscan] at hsome
    cases hsome
  | some found =>
    refine .inl ⟨found.1, Numeral.isDecimal_of_scan hscan, rfl, fun m hm hfront => ?_⟩
    obtain ⟨n, left, hsome, hbehind⟩ := hfound m hm hfront
    rw [hscan, Option.some.injEq] at hsome
    rwa [hsome]

theorem ascii_splitNumeral (word : List Char) :
    ∀ c ∈ (Length.splitNumeral word).1, c.toNat < 128 := by
  have hmarks : ∀ c ∈ ['+', '-', '.', 'e', 'E'], c.toNat < 128 := Css.forall_mem_of_all rfl
  intro c hc
  rcases splitNumeral_cases word with ⟨n, hn, hfirst, -⟩ | ⟨hnone, -⟩
  · rw [hfirst] at hc
    refine (hn.mem_source hc).elim (fun hdigit => ?_) (hmarks c)
    have := toNat_of_isDigit hdigit
    omega
  · rw [hnone] at hc
    cases hc

theorem Numeral.IsDecimal.readFloat?_source {n : Numeral} (h : n.IsDecimal) :
    readFloat? n.source = some (Decimal.ofNumeral n).toFloat := by
  rw [readFloat?, Decimal.ofText?_eq_some_iff.mpr (.numeral h), Option.map_some]

namespace Length

theorem Reading.word_numeral {word : List Char} {n : Numeral} (h : n.IsDecimal)
    (hfirst : (splitNumeral word).1 = n.source) (r : Reading) :
    r.word word = ⟨r.lengths ++ [⟨(Decimal.ofNumeral n).toFloat, .ofName (splitNumeral word).2⟩],
      (splitNumeral word).2.isEmpty⟩ := by
  simp only [Reading.word, hfirst, h.source_ne_nil, if_false, h.readFloat?_source]

theorem length_setLastUnit (unit : LengthUnit) (lengths : List Length) :
    (setLastUnit unit lengths).length = lengths.length := by
  rcases List.eq_nil_or_concat' lengths with rfl | ⟨front, last, rfl⟩
  · rfl
  · rw [setLastUnit_concat, List.length_append, List.length_append]
    rfl

theorem Reading.length_word (r : Reading) (word : List Char) :
    (r.word word).lengths.length =
      r.lengths.length + if (splitNumeral word).1 ≠ [] then 1 else 0 := by
  rcases splitNumeral_cases word with ⟨n, hn, hfirst, -⟩ | ⟨hnone, -⟩
  · rw [word_numeral hn hfirst, hfirst, if_pos hn.source_ne_nil, List.length_append,
      List.length_singleton]
  · rw [if_neg (not_not_intro hnone), Nat.add_zero]
    simp only [Reading.word, hnone, if_true]
    split
    · exact length_setLastUnit _ _
    · rfl

theorem length_readAll (text : List Char) :
    (readAll text).length = (words text).countP fun word => (splitNumeral word).1 ≠ [] := by
  have hrun : ∀ (ws : List (List Char)) (r : Reading), (ws.foldl Reading.word r).lengths.length =
      r.lengths.length + ws.countP fun word => (splitNumeral word).1 ≠ [] := by
    intro ws
    induction ws with
    | nil => exact fun r => rfl
    | cons word ws ih =>
      intro r
      rw [List.foldl_cons, ih, Reading.length_word, List.countP_cons, Nat.add_assoc]
      simp only [decide_eq_true_eq, Nat.add_comm]
  rw [readAll, hrun, List.length_nil, Nat.zero_add]

end Length

/-! ## A cursor over bytes -/

/-- The bytes of a text in UTF-8. -/
def utf8 (s : List Char) : List UInt8 := s.flatMap String.utf8EncodeChar

def isDigitByte (b : UInt8) : Bool := 48 ≤ b.toNat && b.toNat ≤ 57

/-- The byte at a cursor is one of some characters of ASCII. -/
def isByteAt (chars : List Char) (bytes : List UInt8) (i : Nat) : Bool :=
  bytes[i]?.any fun b => chars.any fun c => b.toNat = c.toNat

/-- The cursor behind the digits that stand at it. -/
def behindDigits (bytes : List UInt8) (i : Nat) : Nat :=
  i + ((bytes.drop i).takeWhile isDigitByte).length

def behindSign (bytes : List UInt8) (i : Nat) : Nat :=
  if isByteAt ['+', '-'] bytes i then i + 1 else i

def behindFraction (bytes : List UInt8) (i : Nat) : Nat :=
  if isByteAt ['.'] bytes i then behindDigits bytes (i + 1) else i

/-- The cursor behind an exponent, if a digit stands in it. -/
def behindExponent (bytes : List UInt8) (i : Nat) : Nat :=
  if isByteAt ['e', 'E'] bytes i ∧ bytes[behindSign bytes (i + 1)]?.any isDigitByte then
    behindDigits bytes (behindSign bytes (i + 1))
  else i

/-- Where a cursor stops that goes over bytes to the end of a numeral. It goes nowhere if there are
no digits behind the sign but perhaps a dot. -/
def numeralEnd (bytes : List UInt8) : Nat :=
  let start := behindSign bytes 0
  let stop := behindFraction bytes (behindDigits bytes start)
  if stop = start ∨ stop = start + 1 ∧ isByteAt ['.'] bytes start then 0
  else behindExponent bytes stop

theorem utf8_append (s t : List Char) : utf8 (s ++ t) = utf8 s ++ utf8 t := List.flatMap_append

theorem utf8EncodeChar_cases (c : Char) :
    (c.toNat < 128 ∧ String.utf8EncodeChar c = [UInt8.ofNat c.toNat]) ∨
      128 ≤ c.toNat ∧ ∃ b bs, String.utf8EncodeChar c = b :: bs ∧ 128 ≤ b.toNat := by
  have hval : c.val.toNat = c.toNat := rfl
  unfold String.utf8EncodeChar
  simp only [hval]
  split
  · exact .inl ⟨by omega, rfl⟩
  · refine .inr ⟨by omega, ?_⟩
    split
    · exact ⟨_, _, rfl, by rw [UInt8.toNat_ofNat']; omega⟩
    · split
      · exact ⟨_, _, rfl, by rw [UInt8.toNat_ofNat']; omega⟩
      · exact ⟨_, _, rfl, by rw [UInt8.toNat_ofNat']; omega⟩

/-- A test of bytes that tells characters of ASCII apart as a test of characters does, and that no
byte beyond ASCII passes. -/
structure Reads (q : UInt8 → Bool) (p : Char → Bool) : Prop where
  ascii : ∀ c : Char, c.toNat < 128 → q (UInt8.ofNat c.toNat) = p c
  beyond : ∀ b : UInt8, 128 ≤ b.toNat → q b = false
  no_char : ∀ c : Char, 128 ≤ c.toNat → p c = false

theorem reads_digit : Reads isDigitByte isDigit where
  ascii := fun c hc =>
    forall_ascii (p := fun c => isDigitByte (UInt8.ofNat c.toNat) = isDigit c) (by decide) hc
  beyond := fun b hb => by simp [isDigitByte]; omega
  no_char := fun c hc => by
    by_contra hdigit
    have := toNat_of_isDigit (Bool.eq_true_of_not_eq_false hdigit)
    omega

theorem reads_chars {chars : List Char} (h : ∀ c ∈ chars, c.toNat < 128) :
    Reads (fun b => chars.any fun c => b.toNat = c.toNat) fun c => chars.contains c where
  ascii := fun c hc => by
    rw [UInt8.toNat_ofNat_of_lt' (Nat.lt_trans hc (by decide))]
    induction chars with
    | nil => rfl
    | cons d chars ih =>
      rw [List.any_cons, List.contains_cons, ih (List.forall_mem_cons.mp h).2]
      congr 1
      rw [Bool.eq_iff_iff, decide_eq_true_eq, beq_iff_eq, Char.toNat_inj]
  beyond := fun b hb => by
    rw [List.any_eq_false]
    intro c hc
    have := h c hc
    simp
    omega
  no_char := fun c hc => by
    rw [← Bool.not_eq_true, List.contains_iff_mem]
    intro hmem
    have := h c hmem
    omega

section

variable {q : UInt8 → Bool} {p : Char → Bool} (h : Reads q p)

include h

theorem head?_utf8 (s : List Char) : (utf8 s).head?.any q = s.head?.any p := by
  cases s with
  | nil => rfl
  | cons c s =>
    rw [utf8, List.flatMap_cons]
    rcases utf8EncodeChar_cases c with ⟨hc, hbytes⟩ | ⟨hc, b, bs, hbytes, hb⟩
    · rw [hbytes]
      exact h.ascii c hc
    · rw [hbytes, List.cons_append, List.head?_cons, Option.any_some, h.beyond b hb]
      exact (h.no_char c hc).symm

theorem length_takeWhile_utf8 (s : List Char) :
    ((utf8 s).takeWhile q).length = (s.takeWhile p).length := by
  induction s with
  | nil => rfl
  | cons c s ih =>
    rw [utf8, List.flatMap_cons]
    rcases utf8EncodeChar_cases c with ⟨hc, hbytes⟩ | ⟨hc, b, bs, hbytes, hb⟩
    · rw [hbytes, List.singleton_append, List.takeWhile_cons, List.takeWhile_cons, h.ascii c hc]
      split
      · rw [List.length_cons, List.length_cons, ← ih, utf8]
      · rfl
    · rw [hbytes, List.cons_append, List.takeWhile_cons_of_neg (by simp [h.beyond b hb]),
        List.takeWhile_cons_of_neg (by simp [h.no_char c hc])]
      rfl

end

theorem length_utf8 {s : List Char} (h : ∀ c ∈ s, c.toNat < 128) : (utf8 s).length = s.length := by
  induction s with
  | nil => rfl
  | cons c s ih =>
    obtain ⟨hc, h⟩ := List.forall_mem_cons.mp h
    obtain ⟨-, hbytes⟩ := (utf8EncodeChar_cases c).resolve_right fun hbeyond => by omega
    rw [utf8, List.flatMap_cons, hbytes, List.length_append, List.length_singleton, ← utf8, ih h,
      List.length_cons, Nat.add_comm]

theorem drop_utf8 {s : List Char} (h : ∀ c ∈ s, c.toNat < 128) (t : List Char) :
    (utf8 (s ++ t)).drop s.length = utf8 t := by
  rw [utf8_append, ← length_utf8 h, List.drop_left]

section

variable {s : List Char} (h : ∀ c ∈ s, c.toNat < 128)

include h

theorem getElem?_utf8 {q : UInt8 → Bool} {p : Char → Bool} (hq : Reads q p) (t : List Char) :
    (utf8 (s ++ t))[s.length]?.any q = t.head?.any p := by
  rw [← head?_utf8 hq, ← drop_utf8 h t, List.head?_drop]

theorem behindDigits_utf8 (t : List Char) :
    behindDigits (utf8 (s ++ t)) s.length = (s ++ t.takeWhile isDigit).length := by
  rw [behindDigits, drop_utf8 h t, length_takeWhile_utf8 reads_digit, List.length_append]

end

theorem ascii_of_isDigit {s : List Char} (h : ∀ c ∈ s, isDigit c = true) :
    ∀ c ∈ s, c.toNat < 128 := by
  intro c hc
  have := (toNat_of_isDigit (h c hc)).2
  omega

theorem ascii_sign (sign : Option Sign) : ∀ c ∈ Sign.source sign, c.toNat < 128 := by
  rcases sign with - | - | - <;> exact Css.forall_mem_of_all rfl

theorem takeWhile_eq_nil_iff_head? {p : Char → Bool} {s : List Char} :
    s.takeWhile p = [] ↔ s.head?.any p = false := by
  cases s with
  | nil => simp
  | cons c s => cases hc : p c <;> simp [hc]

section

variable {s : List Char} (h : ∀ c ∈ s, c.toNat < 128)

include h

theorem isByteAt_utf8 (chars t : List Char) (hchars : chars.all (·.toNat < 128) = true) :
    isByteAt chars (utf8 (s ++ t)) s.length = t.head?.any chars.contains :=
  getElem?_utf8 h (reads_chars (Css.forall_mem_of_all hchars)) t

theorem behindSign_utf8 (t : List Char) :
    behindSign (utf8 (s ++ t)) s.length = (s ++ Sign.source (Sign.scan t).1).length := by
  rw [behindSign, isByteAt_utf8 h ['+', '-'] t rfl, List.length_append]
  cases t with
  | nil => rfl
  | cons c t =>
    unfold Sign.scan
    by_cases hplus : c = '+'
    · simp [hplus, Sign.source]
    · by_cases hminus : c = '-'
      · simp [hminus, Sign.source]
      · simp [hplus, hminus, Sign.source]

theorem behindExponent_utf8 (t : List Char) :
    behindExponent (utf8 (s ++ t)) s.length =
      (s ++ Exponent.source (Exponent.scan t).1).length := by
  unfold behindExponent
  simp only [isByteAt_utf8 h ['e', 'E'] t rfl]
  cases t with
  | nil => simp [Exponent.scan, Exponent.source]
  | cons c t =>
    have hmarker : (c :: t).head?.any ['e', 'E'].contains = true ↔ c = 'e' ∨ c = 'E' := by simp
    simp only [hmarker, Exponent.scan]
    by_cases hc : c = 'e' ∨ c = 'E'
    · have hfront : ∀ d ∈ s ++ [c], d.toNat < 128 := by
        refine List.forall_mem_append.mpr ⟨h, List.forall_mem_singleton.mpr ?_⟩
        rcases hc with rfl | rfl <;> decide
      have hsign : ∀ d ∈ s ++ [c] ++ Sign.source (Sign.scan t).1, d.toNat < 128 :=
        List.forall_mem_append.mpr ⟨hfront, ascii_sign _⟩
      have hcursor := behindSign_utf8 hfront t
      have hdigit := getElem?_utf8 hsign reads_digit (Sign.scan t).2
      have hend := behindDigits_utf8 hsign (Sign.scan t).2
      rw [List.append_assoc, Sign.source_scan_append, ← hcursor] at hdigit hend
      rw [List.append_assoc, List.singleton_append, List.length_append,
        List.length_singleton] at hcursor hdigit hend
      rw [hdigit, hend]
      by_cases hdigits : (Sign.scan t).2.takeWhile isDigit = []
      · rw [takeWhile_eq_nil_iff_head?] at hdigits
        simp [hdigits, takeWhile_eq_nil_iff_head?.mpr hdigits, Exponent.source]
      · have hsome : (Sign.scan t).2.head?.any isDigit = true := by
          rwa [takeWhile_eq_nil_iff_head?, Bool.not_eq_false] at hdigits
        rw [if_pos ⟨hc, hsome⟩, if_pos ⟨hc, hdigits⟩]
        simp [Exponent.source]
    · simp [hc, Exponent.source]

theorem behindFraction_utf8 (t : List Char) :
    behindFraction (utf8 (s ++ t)) s.length =
      (s ++ Numeral.fractionSource (Numeral.scanFraction true t).1).length := by
  unfold behindFraction
  rw [isByteAt_utf8 h ['.'] t rfl]
  cases t with
  | nil => simp [Numeral.scanFraction, Numeral.fractionSource]
  | cons c t =>
    by_cases hc : c = '.'
    · have hfront : ∀ d ∈ s ++ [c], d.toNat < 128 :=
        List.forall_mem_append.mpr ⟨h, List.forall_mem_singleton.mpr (hc ▸ by decide)⟩
      have hend := behindDigits_utf8 hfront t
      rw [List.append_assoc, List.singleton_append, @List.length_append _ s,
        List.length_singleton] at hend
      rw [hend]
      simp [Numeral.scanFraction, Numeral.fractionSource, hc]
    · simp [Numeral.scanFraction, Numeral.fractionSource, hc]

end

theorem Numeral.scanFraction_false (s : List Char) :
    scanFraction false s =
      if (scanFraction true s).1.getD [] = [] then (none, s) else scanFraction true s := by
  cases s with
  | nil => rfl
  | cons c s =>
    by_cases hc : c = '.'
    · by_cases hdigits : s.takeWhile isDigit = [] <;> simp [scanFraction, hc, hdigits]
    · simp [scanFraction, hc]

section

variable {sign : Option Sign} {whole left : List Char} {fraction : Option (List Char)}

/-- A cursor behind the fraction is at most one bare dot behind the sign if there are no digits. -/
theorem behindFraction_back_iff (h : ∀ c ∈ whole, isDigit c = true) :
    let stop := (Sign.source sign ++ whole ++ Numeral.fractionSource fraction).length
    (stop = (Sign.source sign).length ∨ stop = (Sign.source sign).length + 1 ∧
        (whole ++ (Numeral.fractionSource fraction ++ left)).head?.any ['.'].contains = true) ↔
      whole = [] ∧ fraction.getD [] = [] := by
  cases whole with
  | nil => cases fraction <;> simp [Numeral.fractionSource]
  | cons c whole =>
    have hc : c ≠ '.' := by
      rintro rfl
      exact absurd (h '.' List.mem_cons_self) (by decide)
    simp [hc]

end

/-- The cursor stops where the numeral ends that the word is split behind. -/
theorem numeralEnd_utf8 (word : List Char) :
    numeralEnd (utf8 word) = (Length.splitNumeral word).1.length := by
  obtain ⟨sign, body, hsign⟩ : ∃ sign body, Sign.scan word = (sign, body) := ⟨_, _, rfl⟩
  obtain ⟨whole, hwhole⟩ : ∃ whole, body.takeWhile isDigit = whole := ⟨_, rfl⟩
  obtain ⟨rest, hrest⟩ : ∃ rest, body.dropWhile isDigit = rest := ⟨_, rfl⟩
  obtain ⟨fraction, left, hfraction⟩ : ∃ fraction left,
      Numeral.scanFraction true rest = (fraction, left) := ⟨_, _, rfl⟩
  have hword : word = Sign.source sign ++ body := by
    rw [← Sign.source_scan_append word, hsign]
  have hbody : body = whole ++ rest := by
    rw [← hwhole, ← hrest, List.takeWhile_append_dropWhile]
  have hleft : rest = Numeral.fractionSource fraction ++ left := by
    rw [← Numeral.scanFraction_append true rest, hfraction]
  have hdigits : ∀ c ∈ whole, isDigit c = true := fun c hc =>
    Numeral.isDigit_of_mem_takeWhile (hwhole ▸ hc)
  -- The cursor goes over a sign, digits and a fraction, one after the other.
  have hstart : behindSign (utf8 word) 0 = (Sign.source sign).length := by
    have hbehind := behindSign_utf8 (s := []) (by simp) word
    rwa [hsign] at hbehind
  have hmiddle : behindDigits (utf8 word) (Sign.source sign).length =
      (Sign.source sign ++ whole).length := by
    rw [hword, behindDigits_utf8 (ascii_sign sign), hwhole]
  have hfront : ∀ c ∈ Sign.source sign ++ whole, c.toNat < 128 :=
    List.forall_mem_append.mpr ⟨ascii_sign sign, ascii_of_isDigit hdigits⟩
  have hstop : behindFraction (utf8 word) (Sign.source sign ++ whole).length =
      (Sign.source sign ++ whole ++ Numeral.fractionSource fraction).length := by
    rw [hword, hbody, ← List.append_assoc, behindFraction_utf8 hfront, hfraction]
  have hdot : isByteAt ['.'] (utf8 word) (Sign.source sign).length =
      (whole ++ (Numeral.fractionSource fraction ++ left)).head?.any ['.'].contains := by
    rw [hword, isByteAt_utf8 (ascii_sign sign) ['.'] body rfl, hbody, hleft]
  unfold numeralEnd Length.splitNumeral Numeral.scan
  simp only [hstart, hmiddle, hstop, hdot, behindFraction_back_iff hdigits, hsign, hwhole, hrest]
  by_cases hback : whole = [] ∧ fraction.getD [] = []
  · obtain ⟨rfl, hbare⟩ := hback
    simp [Numeral.scanFraction_false, hfraction, hbare]
  · have hsame : Numeral.scanFraction (true && !whole.isEmpty) rest = (fraction, left) := by
      cases whole with
      | nil => simp_all [Numeral.scanFraction_false]
      | cons c whole => exact hfraction
    have hfound : ¬(whole = [] ∧ fraction = none) := fun hnone =>
      hback ⟨hnone.1, by rw [hnone.2, Option.getD_none]⟩
    have hascii : ∀ c ∈ Sign.source sign ++ whole ++ Numeral.fractionSource fraction,
        c.toNat < 128 := by
      refine List.forall_mem_append.mpr ⟨hfront, ?_⟩
      cases fraction with
      | none => simp [Numeral.fractionSource]
      | some digits =>
        refine List.forall_mem_cons.mpr ⟨by decide, ascii_of_isDigit ?_⟩
        exact (Numeral.digits_of_scanFraction (congrArg Prod.fst hfraction)).1
    have hend := behindExponent_utf8 hascii left
    rw [List.append_assoc _ _ left, ← hleft, List.append_assoc _ _ rest, ← hbody, ← hword] at hend
    simp only [if_neg hback, hend, hsame, if_neg hfound, Numeral.source]

/-! ## The split -/

/-- Both parts of a word together are the word. The first part is the longest text of a numeral that
the word starts with (a sign perhaps, digits that a dot and more digits may follow or a dot with
digits behind it, and perhaps an exponent with digits), or empty if the word starts with none. The
cursor over the bytes of the word stops between the bytes of the two parts. A part of a numeral is
read as a number, so its word is one more length after any words in front of it, and no word with
such a part is passed over in any text. -/
theorem Length.splitNumeral_longest (word : List Char) :
    (splitNumeral word).1 ++ (splitNumeral word).2 = word ∧
      ((∃ n : Numeral, n.IsDecimal ∧ (splitNumeral word).1 = n.source ∧
          (∀ m : Numeral, m.IsDecimal → m.source <+: word → m.source <+: n.source) ∧
          readFloat? n.source = some (Decimal.ofNumeral n).toFloat ∧
          ∀ r : Reading, r.word word =
            ⟨r.lengths ++ [⟨(Decimal.ofNumeral n).toFloat, .ofName (splitNumeral word).2⟩],
              (splitNumeral word).2.isEmpty⟩) ∨
        (splitNumeral word).1 = [] ∧ ∀ m : Numeral, m.IsDecimal → ¬m.source <+: word) ∧
      (utf8 word).splitAt (numeralEnd (utf8 word)) =
        (utf8 (splitNumeral word).1, utf8 (splitNumeral word).2) ∧
      ∀ text, (readAll text).length =
        (words text).countP fun token => (splitNumeral token).1 ≠ [] := by
  refine ⟨splitNumeral_append word, ?_, ?_, length_readAll⟩
  · refine (splitNumeral_cases word).imp_left ?_
    rintro ⟨n, hn, hfirst, hlongest⟩
    exact ⟨n, hn, hfirst, hlongest, hn.readFloat?_source, Reading.word_numeral hn hfirst⟩
  · have hlength : (utf8 (splitNumeral word).1).length = numeralEnd (utf8 word) := by
      rw [numeralEnd_utf8, length_utf8 (ascii_splitNumeral word)]
    have hbytes : utf8 word = utf8 (splitNumeral word).1 ++ utf8 (splitNumeral word).2 := by
      rw [← utf8_append, splitNumeral_append]
    rw [← hlength, hbytes, List.splitAt_eq, List.take_left, List.drop_left]

end ClassStyle
