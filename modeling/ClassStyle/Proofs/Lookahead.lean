import Mathlib.Data.List.TakeWhile
import ClassStyle.Css.Lexeme

/-!
# How far tokens look ahead

A stop is a character that no token in front of it wants to see. If a token ends before a stop, it
is the token that would stand there without the stop and all that follows (`tokenAt_stop`). So a
text can be read up to a stop by itself (`lexemes_append`), and up to any other blank as well, but
that a carriage return and the line feed behind it are one newline.
-/

namespace ClassStyle.Css

open Text

-- Sums start with the zero of the core library, also where an algebra library is in scope.
attribute [local instance (high)] Zero.ofOfNat0

/-! ## Stops -/

def stops : List Char := [';', '{', '}', '[', ']', ')', ',', ':', ' ']

/-- Stops and all blanks of ASCII. Newlines are no stops, since a backslash wants to see them. -/
def marks : List Char := stops ++ ['\t', '\x0b', '\n', '\r', '\x0c']

variable {x y : Char} {u v w : List Char}

theorem forall_mem_of_all {α : Type} {l : List α} {p : α → Prop} [DecidablePred p]
    (h : l.all (fun c => decide (p c)) = true) : ∀ c ∈ l, p c :=
  fun c hc => of_decide_eq_true (List.all_eq_true.mp h c hc)

theorem mark_of_stop (hx : x ∈ stops) : x ∈ marks := List.mem_append_left _ hx

theorem not_newline_of_stop : ∀ c ∈ stops, isNewline c = false := forall_mem_of_all (by decide)

theorem not_digit_of_mark : ∀ c ∈ marks, isDigit c = false := forall_mem_of_all (by decide)

theorem not_hexDigit_of_mark : ∀ c ∈ marks, isHexDigit c = false :=
  forall_mem_of_all (by decide)

theorem not_nameStart_of_mark : ∀ c ∈ marks, isNameStart c = false :=
  forall_mem_of_all (by decide)

theorem not_nameChar_of_mark : ∀ c ∈ marks, isNameChar c = false := forall_mem_of_all (by decide)

/-- The other marks that tokens look for behind them. -/
def wanted : List Char :=
  ['\\', '\'', '"', '(', '%', '.', '+', '-', '*', '/', '=', '!', '>', '<', 'e', 'E']

theorem not_wanted_of_mark : ∀ c ∈ marks, c ∉ wanted := forall_mem_of_all (by decide)

theorem mark_ne (hy : y ∈ marks) {d : Char} (hd : d ∈ wanted) : y ≠ d :=
  fun h => not_wanted_of_mark y hy (h ▸ hd)

theorem getLast?_of_suffix {s t : List Char} (h : s <:+ t) {c : Char}
    (hs : s.getLast? = some c) : t.getLast? = some c := by
  obtain ⟨before, rfl⟩ := h
  rw [List.getLast?_append, hs]
  rfl

/-- Behind a text, a mark may stand in the place of a stop. -/
structure Replaces (x y : Char) (u : List Char) : Prop where
  stop : x ∈ stops
  mark : y ∈ marks
  space : isSpace x = isSpace y
  newline : y = '\n' → u.getLast? ≠ some '\r'

namespace Replaces

theorem of_stop (hx : x ∈ stops) (hy : y ∈ stops) (hs : isSpace x = isSpace y) :
    Replaces x y u := by
  refine ⟨hx, mark_of_stop hy, hs, ?_⟩
  rintro rfl
  exact absurd (not_newline_of_stop _ hy) (by decide)

theorem mono (hf : Replaces x y u) {t : List Char} (h : t <:+ u) : Replaces x y t :=
  ⟨hf.stop, hf.mark, hf.space, fun hy => mt (getLast?_of_suffix h) (hf.newline hy)⟩

end Replaces

/-- Tokens that end before the mark `x` in `u ++ x :: w` are the same in `u ++ y :: v`, and in `u`
by itself. A newline `x` is not behind a backslash and is not exchanged, a line feed `y` does not
make one newline with a carriage return if `x` does not, and only blanks are behind a blank `x`. -/
structure Unseen (x : Char) (w : List Char) (y : Char) (v u : List Char) : Prop where
  near : x ∈ marks
  far : y ∈ marks
  space : isSpace x = isSpace y
  newline : isNewline x = true → y = x ∧ u.getLast? ≠ some '\\'
  feed : y = '\n' → x = '\n' ∨ u.getLast? ≠ some '\r'
  blanks : isSpace x = true → ∀ c ∈ w, isSpace c = true

namespace Unseen

theorem mono (hf : Unseen x w y v u) {t : List Char} (h : t <:+ u) : Unseen x w y v t :=
  ⟨hf.near, hf.far, hf.space,
    fun hx => (hf.newline hx).imp_right (mt (getLast?_of_suffix h)),
    fun hy => (hf.feed hy).imp_right (mt (getLast?_of_suffix h)), hf.blanks⟩

theorem tail {c : Char} (hf : Unseen x w y v (c :: u)) : Unseen x w y v u :=
  hf.mono (List.suffix_cons c u)

theorem drop (hf : Unseen x w y v u) (n : Nat) : Unseen x w y v (u.drop n) :=
  hf.mono (List.drop_suffix n u)

theorem refl (hf : Unseen x w y v u) : Unseen x w x w u :=
  ⟨hf.near, hf.near, rfl, fun hx => ⟨rfl, (hf.newline hx).2⟩, .inl, hf.blanks⟩

theorem not_newline (hf : Unseen x w y v ['\\']) : isNewline x = false := by
  cases hx : isNewline x with
  | false => rfl
  | true => exact absurd rfl (hf.newline hx).2

end Unseen

theorem Replaces.unseen (hf : Replaces x y u) : Unseen x [] y v u :=
  ⟨mark_of_stop hf.stop, hf.mark, hf.space,
    fun hx => absurd hx (by simp [not_newline_of_stop x hf.stop]), fun hy => .inr (hf.newline hy),
    fun _ => List.forall_mem_nil _⟩

theorem head?_append_stop {p : Char → Bool} (hp : p y = false) :
    (u ++ y :: v).head?.any p = u.head?.any p := by
  cases u <;> simp [hp]

theorem head?_stop_eq (hy : y ∈ marks) {d : Char} (hd : d ∈ wanted) :
    (u ++ y :: v).head? = some d ↔ u.head? = some d := by
  cases u with
  | nil => simp [mark_ne hy hd]
  | cons c u => simp

theorem takeWhile_stop {p : Char → Bool} (hp : p y = false) :
    (u ++ y :: v).takeWhile p = u.takeWhile p := by
  rw [List.takeWhile_append]
  split
  · next h => simp [hp, (List.takeWhile_prefix p).eq_of_length h]
  · rfl

theorem dropWhile_stop {p : Char → Bool} (hp : p y = false) :
    (u ++ y :: v).dropWhile p = u.dropWhile p ++ y :: v := by
  rw [List.dropWhile_append]
  split
  · next h => rw [List.isEmpty_iff.mp h]; simp [hp]
  · rfl

theorem startsWithNewline_stop (hy : u = [] → isNewline y = false) :
    startsWithNewline (u ++ y :: v) = startsWithNewline u := by
  cases u with
  | nil => simp [startsWithNewline, hy rfl]
  | cons c u => rfl

theorem takeWhile_isSpace_stop (hxy : isSpace x = isSpace y)
    (h : ((u ++ x :: w).takeWhile isSpace).length ≤ u.length) :
    (u ++ y :: v).takeWhile isSpace = u.takeWhile isSpace := by
  cases hx : isSpace x with
  | false => exact takeWhile_stop (hxy ▸ hx)
  | true =>
    rw [List.takeWhile_append] at h ⊢
    have hne : (u.takeWhile isSpace).length ≠ u.length := by
      intro he
      rw [if_pos he, List.takeWhile_cons_of_pos hx, List.length_append, List.length_cons] at h
      omega
    rw [if_neg hne]

/-! ## Escapes and names -/

theorem spaceLength_stop (hf : Unseen x w y v u) (h : spaceLength (u ++ x :: w) ≤ u.length) :
    spaceLength (u ++ y :: v) = spaceLength u := by
  match u with
  | [] =>
    have hx : isSpace x = false := by
      cases hx : isSpace x with
      | false => rfl
      | true =>
        cases w with
        | nil => simp [spaceLength, hx] at h
        | cons d w =>
          simp only [List.nil_append, spaceLength, hx, if_true, List.length_nil] at h
          split at h <;> omega
    have hy : isSpace y = false := hf.space ▸ hx
    have hreturn : y ≠ '\r' := by
      rintro rfl
      exact absurd hy (by decide)
    cases v <;> simp [spaceLength, hy, hreturn]
  | [c] =>
    have hnewline : ¬(c = '\r' ∧ y = '\n') := by
      rintro ⟨rfl, hy⟩
      rcases hf.feed hy with rfl | hlast
      · simp [spaceLength] at h
      · exact hlast rfl
    simp [spaceLength, hnewline]
  | c :: d :: u => rfl

theorem take_takeWhile_stop {p : Char → Bool} (hp : p y = false) (n : Nat) :
    ((u ++ y :: v).take n).takeWhile p = (u.take n).takeWhile p := by
  rw [List.take_append]
  cases hn : n - u.length with
  | zero => simp
  | succ m => rw [List.take_succ_cons, takeWhile_stop hp]

theorem length_take_takeWhile_le (p : Char → Bool) (n : Nat) (s : List Char) :
    ((s.take n).takeWhile p).length ≤ s.length :=
  Nat.le_trans (List.takeWhile_sublist p).length_le (List.length_take_le' ..)

theorem escape_stop (hf : Unseen x w y v u) (h : (escape (u ++ x :: w)).2 ≤ u.length) :
    escape (u ++ y :: v) = escape u := by
  have hx := not_hexDigit_of_mark x hf.near
  cases u with
  | nil => simp [escape, hx] at h
  | cons c u =>
    have hdx := take_takeWhile_stop (u := c :: u) (v := w) hx 6
    have hdy := take_takeWhile_stop (u := c :: u) (v := v) (not_hexDigit_of_mark y hf.far) 6
    have hle := length_take_takeWhile_le isHexDigit 6 (c :: u)
    simp only [List.cons_append, escape] at h hdx hdy hle ⊢
    rw [hdx] at h
    rw [hdy]
    split
    · rfl
    · next hne =>
      rw [if_neg hne] at h
      simp only at h
      rw [← List.cons_append, List.drop_append_of_le_length hle] at h ⊢
      rw [spaceLength_stop (hf.drop _)]
      simp only [List.length_drop]
      omega

theorem length_escape_mark (hx : x ∈ marks) : (escape (x :: w)).2 = 1 := by
  simp [escape, not_hexDigit_of_mark x hx]

theorem startsWithNewline_of_escape (hf : Unseen x w y v ('\\' :: u))
    (h : startsWithNewline (u ++ x :: w) = false → (escape (u ++ x :: w)).2 ≤ u.length) :
    startsWithNewline (u ++ x :: w) = startsWithNewline u ∧
      startsWithNewline (u ++ y :: v) = startsWithNewline u := by
  cases u with
  | nil =>
    have hx : startsWithNewline ([] ++ x :: w) = false := by
      simp [startsWithNewline, hf.not_newline]
    have hle := h hx
    rw [List.nil_append, length_escape_mark hf.near] at hle
    exact absurd hle (by decide)
  | cons c u => exact ⟨startsWithNewline_stop nofun, startsWithNewline_stop nofun⟩

theorem length_nameChar?_pos {s : List Char} {d : Char × Nat} (h : nameChar? s = some d) :
    1 ≤ d.2 := by
  unfold nameChar? at h
  split at h
  · simp at h
  · split at h
    · split at h
      · simp at h
      · obtain rfl := Option.some.inj h
        simp
    · split at h
      · obtain rfl := Option.some.inj h
        simp
      · simp at h

theorem nameChar?_stop {c : Char} (hf : Unseen x w y v (c :: u))
    (h : ∀ d, nameChar? (c :: (u ++ x :: w)) = some d → d.2 ≤ u.length + 1) :
    nameChar? (c :: (u ++ y :: v)) = nameChar? (c :: u) := by
  simp only [nameChar?] at h ⊢
  by_cases hc : c = '\\'
  · subst hc
    simp only [if_true] at h ⊢
    have hle : startsWithNewline (u ++ x :: w) = false → (escape (u ++ x :: w)).2 ≤ u.length :=
      fun hn => Nat.le_of_succ_le_succ (h _ (if_neg (by simp [hn])))
    obtain ⟨hnear, hfar⟩ := startsWithNewline_of_escape hf hle
    rw [hfar]
    split
    · rfl
    · next hn => rw [escape_stop hf.tail (hle (by rw [hnear]; simpa using hn))]
  · simp only [hc, if_false]

/-- The characters that a list of name characters takes up, with the `skip` that come first. -/
def nameExtent (skip : Nat) (s : List Char) : Nat := skip + ((nameChars skip s).map Prod.snd).sum

theorem nameChars_stop (hf : Unseen x w y v u) (skip : Nat)
    (h : nameExtent skip (u ++ x :: w) ≤ u.length) :
    nameChars skip (u ++ y :: v) = nameChars skip u := by
  induction u generalizing skip with
  | nil =>
    cases skip with
    | succ skip => simp [nameExtent] at h
    | zero => simp [nameChars, nameChar?, mark_ne hf.far (d := '\\') (by decide),
        not_nameChar_of_mark y hf.far]
  | cons c u ih =>
    cases skip with
    | succ skip =>
      refine ih hf.tail skip ?_
      simp only [nameExtent, List.cons_append, nameChars, List.length_cons] at h ⊢
      omega
    | zero =>
      simp only [nameExtent, List.cons_append, nameChars, List.length_cons] at h
      have hc : ∀ d, nameChar? (c :: (u ++ x :: w)) = some d → d.2 ≤ u.length + 1 := by
        intro d hd
        simp only [hd, List.map_cons, List.sum_cons] at h
        omega
      simp only [List.cons_append, nameChars, nameChar?_stop hf hc]
      rw [nameChar?_stop hf.refl hc] at h
      split
      · rfl
      · next d n heq =>
        simp only [heq, List.map_cons, List.sum_cons] at h
        have hpos := length_nameChar?_pos heq
        rw [ih hf.tail (n - 1)]
        simp only [nameExtent] at h ⊢
        omega

theorem readName_stop (hf : Unseen x w y v u) (h : (readName (u ++ x :: w)).2 ≤ u.length) :
    readName (u ++ y :: v) = readName u := by
  simp only [readName] at h ⊢
  rw [nameChars_stop hf 0 (by simpa [nameExtent] using h)]

theorem readName_escape (hx : x ∈ marks) (hn : isNewline x = false) :
    startsName ('\\' :: x :: w) = true ∧ 2 ≤ (readName ('\\' :: x :: w)).2 := by
  have hnewline : startsWithNewline (x :: w) = false := by simp [startsWithNewline, hn]
  constructor
  · simp [startsName, hnewline]
  · simp [readName, nameChars, nameChar?, hnewline, length_escape_mark hx]

theorem startsName_stop (hy : y ∈ marks) (hu : u = ['\\'] → isNewline y = false) :
    startsName (u ++ y :: v) = startsName u := by
  cases u with
  | nil =>
    simp [startsName, mark_ne hy (d := '-') (by decide), mark_ne hy (d := '\\') (by decide),
      not_nameStart_of_mark y hy]
  | cons c u =>
    simp only [List.cons_append, startsName]
    rw [head?_append_stop]
    · by_cases hc : c = '\\'
      · rw [startsWithNewline_stop]
        rintro rfl
        exact hu (by rw [hc])
      · simp [hc]
    · simp [not_nameStart_of_mark y hy, mark_ne hy (d := '-') (by decide),
        mark_ne hy (d := '\\') (by decide)]

theorem startsName_of_readName (hf : Unseen x w y v u)
    (h : startsName (u ++ x :: w) = true → (readName (u ++ x :: w)).2 ≤ u.length) :
    startsName (u ++ x :: w) = startsName u ∧ startsName (u ++ y :: v) = startsName u := by
  refine ⟨startsName_stop hf.near fun hu => (hu ▸ hf).not_newline,
    startsName_stop hf.far fun hu => ?_⟩
  subst hu
  obtain ⟨hstart, hlength⟩ := readName_escape (w := w) hf.near hf.not_newline
  have hle := h hstart
  rw [List.length_singleton] at hle
  exact absurd (Nat.le_trans hlength hle) (by decide)

/-! ## Strings and comments -/

theorem stringEscapeLength_stop (hf : Unseen x w y v ('\\' :: u))
    (h : stringEscapeLength (u ++ x :: w) ≤ u.length) :
    stringEscapeLength (u ++ y :: v) = stringEscapeLength u := by
  simp only [stringEscapeLength] at h ⊢
  have hle : startsWithNewline (u ++ x :: w) = false → (escape (u ++ x :: w)).2 ≤ u.length :=
    fun hn => by rwa [if_neg (by simp [hn])] at h
  obtain ⟨hnear, hfar⟩ := startsWithNewline_of_escape hf hle
  rw [hfar]
  split
  · next hn => exact spaceLength_stop hf.tail (by rwa [hnear, if_pos hn] at h)
  · next hn => rw [escape_stop hf.tail (hle (by rw [hnear]; simpa using hn))]

theorem min_le_stringLength (quote : Char) (skip : Nat) (s : List Char) :
    min skip s.length ≤ stringLength quote skip s := by
  induction s generalizing skip with
  | nil => simp
  | cons c s ih =>
    cases skip with
    | zero => simp
    | succ skip => simpa [stringLength] using ih skip

theorem stringLength_stop (hf : Unseen x w y v u) (quote : Char) (skip : Nat)
    (h : stringLength quote skip (u ++ x :: w) ≤ u.length) :
    stringLength quote skip (u ++ y :: v) = stringLength quote skip u := by
  induction u generalizing skip with
  | nil =>
    cases skip with
    | succ skip => simp [stringLength] at h
    | zero =>
      -- Only a newline ends a string before it.
      have hx : x ≠ quote ∧ isNewline x = true := by grind [stringLength]
      obtain ⟨rfl, -⟩ := hf.newline hx.2
      simp [stringLength, hx]
  | cons c u ih =>
    cases skip with
    | succ skip =>
      simp only [List.cons_append, stringLength, List.length_cons] at h ⊢
      rw [ih hf.tail skip (by omega)]
    | zero =>
      simp only [List.cons_append, stringLength, List.length_cons] at h ⊢
      split
      · rfl
      · next hq =>
        rw [if_neg hq] at h
        split
        · rfl
        · next hn =>
          rw [if_neg hn] at h
          split
          · next hc =>
            rw [if_pos hc] at h
            have hmin := min_le_stringLength quote (stringEscapeLength (u ++ x :: w)) (u ++ x :: w)
            have hle : stringEscapeLength (u ++ x :: w) ≤ u.length := by
              simp only [List.length_append, List.length_cons] at hmin
              omega
            rw [stringEscapeLength_stop (hc ▸ hf.refl) hle] at h
            rw [stringEscapeLength_stop (hc ▸ hf) hle, ih hf.tail _ (by omega)]
          · next hc =>
            rw [if_neg hc] at h
            rw [ih hf.tail 0 (by omega)]

theorem commentLength_pos (c : Char) : ∀ s : List Char, 1 ≤ commentLength (c :: s)
  | [] => Nat.le_refl 1
  | d :: s => by
    rw [commentLength]
    split <;> omega

theorem commentLength_stop (hx : x ∈ marks) :
    ∀ {u : List Char}, commentLength (u ++ x :: w) ≤ u.length →
      commentLength (u ++ y :: v) = commentLength u
  | [], h => absurd h (Nat.not_le.mpr (commentLength_pos x w))
  | [c], h => by
    have hslash := mark_ne hx (d := '/') (by decide)
    have hpos := commentLength_pos x w
    simp only [List.cons_append, List.nil_append, commentLength, hslash, and_false, if_false,
      List.length_singleton] at h
    omega
  | c :: d :: u, h => by
    simp only [List.cons_append, commentLength, List.length_cons] at h ⊢
    split
    · rfl
    · next hc =>
      rw [if_neg hc] at h
      have ih := commentLength_stop hx (u := d :: u) (by
        simp only [List.cons_append, List.length_cons]
        omega)
      rw [← List.cons_append, ih]

/-! ## Addresses -/

theorem min_le_badUrlLength (skip : Nat) (s : List Char) :
    min skip s.length ≤ badUrlLength skip s := by
  induction s generalizing skip with
  | nil => simp
  | cons c s ih =>
    cases skip with
    | zero => simp
    | succ skip => simpa [badUrlLength] using ih skip

theorem badUrlLength_pos (c : Char) (s : List Char) : 1 ≤ badUrlLength 0 (c :: s) := by
  simp only [badUrlLength]
  split
  · omega
  · split <;> omega

theorem badUrlLength_stop (skip : Nat) (h : badUrlLength skip (u ++ x :: w) ≤ u.length) :
    badUrlLength skip (u ++ y :: v) = badUrlLength skip u := by
  induction u generalizing skip with
  | nil =>
    cases skip with
    | succ skip => simp [badUrlLength] at h
    | zero => exact absurd h (Nat.not_le.mpr (badUrlLength_pos x w))
  | cons c u ih =>
    cases skip with
    | succ skip =>
      simp only [List.cons_append, badUrlLength, List.length_cons] at h ⊢
      rw [ih skip (by omega)]
    | zero =>
      simp only [List.cons_append, badUrlLength, List.length_cons] at h ⊢
      split
      · rfl
      · next hc =>
        rw [if_neg hc] at h
        have hu : u ≠ [] := by
          rintro rfl
          have h0 := badUrlLength_pos x w
          have h1 := min_le_badUrlLength 1 (x :: w)
          rw [List.nil_append, List.length_nil] at h
          rw [List.length_cons] at h1
          split at h
          · omega
          · omega
        have hhead : ∀ t, (u ++ t).head? = u.head? := by
          intro t
          rw [List.head?_append, Option.or_of_isSome (by simpa using hu)]
        rw [hhead] at h ⊢
        split
        · next hb => rw [ih 1 (by rw [if_pos hb] at h; omega)]
        · next hb => rw [ih 0 (by rw [if_neg hb] at h; omega)]

theorem urlEndLength_pos (c : Char) (s : List Char) : 1 ≤ urlEndLength (c :: s) := by
  simp only [urlEndLength]
  split
  · omega
  · split <;> omega

theorem urlEndLength_stop (h : urlEndLength (u ++ x :: w) ≤ u.length) :
    urlEndLength (u ++ y :: v) = urlEndLength u := by
  induction u with
  | nil => exact absurd h (Nat.not_le.mpr (urlEndLength_pos x w))
  | cons c u ih =>
    simp only [List.cons_append, urlEndLength, List.length_cons] at h ⊢
    split
    · rfl
    · next hc =>
      rw [if_neg hc] at h
      split
      · next hs => rw [ih (by rw [if_pos hs] at h; omega)]
      · next hs => rw [badUrlLength_stop (x := x) (w := w) 0 (by rw [if_neg hs] at h; omega)]

theorem min_le_urlLength (skip : Nat) (s : List Char) : min skip s.length ≤ urlLength skip s := by
  induction s generalizing skip with
  | nil => simp
  | cons c s ih =>
    cases skip with
    | zero => simp
    | succ skip => simpa [urlLength] using ih skip

theorem urlLength_pos (c : Char) (s : List Char) : 1 ≤ urlLength 0 (c :: s) := by
  simp only [urlLength]
  repeat' split
  all_goals omega

theorem urlLength_stop (hf : Unseen x w y v u) (skip : Nat)
    (h : urlLength skip (u ++ x :: w) ≤ u.length) :
    urlLength skip (u ++ y :: v) = urlLength skip u := by
  induction u generalizing skip with
  | nil =>
    cases skip with
    | succ skip => simp [urlLength] at h
    | zero => exact absurd h (Nat.not_le.mpr (urlLength_pos x w))
  | cons c u ih =>
    cases skip with
    | succ skip =>
      simp only [List.cons_append, urlLength, List.length_cons] at h ⊢
      rw [ih hf.tail skip (by omega)]
    | zero =>
      simp only [List.cons_append, urlLength, List.length_cons] at h ⊢
      split
      · rfl
      · next hc =>
        rw [if_neg hc] at h
        split
        · next hs => rw [urlEndLength_stop (x := x) (w := w) (by rw [if_pos hs] at h; omega)]
        · next hs =>
          rw [if_neg hs] at h
          split
          · next hb => rw [badUrlLength_stop (x := x) (w := w) 0 (by rw [if_pos hb] at h; omega)]
          · next hb =>
            rw [if_neg hb] at h
            split
            · next he =>
              rw [if_pos he] at h
              have hmin := min_le_urlLength (escape (u ++ x :: w)).2 (u ++ x :: w)
              simp only [List.length_append, List.length_cons] at hmin
              have hle : startsWithNewline (u ++ x :: w) = false →
                  (escape (u ++ x :: w)).2 ≤ u.length := by
                intro hn
                rw [if_neg (by simp [hn])] at h
                omega
              obtain ⟨hnear, hfar⟩ := startsWithNewline_of_escape (he ▸ hf) hle
              rw [hnear] at h
              rw [hfar]
              split
              · next hn =>
                rw [badUrlLength_stop (x := x) (w := w) 0 (by rw [if_pos hn] at h; omega)]
              · next hn =>
                have hshort := hle (by rw [hnear]; simpa using hn)
                rw [if_neg hn, escape_stop hf.tail.refl hshort] at h
                rw [escape_stop hf.tail hshort, ih hf.tail _ (by omega)]
            · next he => rw [ih hf.tail 0 (by rw [if_neg he] at h; omega)]

theorem unquotedUrlLength?_stop (hf : Unseen x w y v u)
    (h : ∀ n, unquotedUrlLength? (u ++ x :: w) = some n → n ≤ u.length) :
    unquotedUrlLength? (u ++ y :: v) = unquotedUrlLength? u := by
  have hblanks : ((u ++ x :: w).takeWhile isSpace).length ≤ u.length := by
    -- Blanks through the mark go on to the end and would leave an empty address behind it.
    refine Decidable.byContradiction fun hn => ?_
    have hfull : (u ++ x :: w).takeWhile isSpace = u ++ x :: w := by
      rw [List.takeWhile_append] at hn ⊢
      split at hn
      · next hall =>
        cases hx : isSpace x with
        | false => simp [hx] at hn
        | true =>
          rw [if_pos hall, List.takeWhile_eq_self_iff.mpr]
          exact List.forall_mem_cons.mpr ⟨hx, hf.blanks hx⟩
      · exact absurd (List.takeWhile_prefix (l := u) isSpace).length_le hn
    have := h (u ++ x :: w).length (by simp [unquotedUrlLength?, hfull, urlLength])
    simp only [List.length_append, List.length_cons] at this
    omega
  have hle := (List.takeWhile_prefix (l := u) isSpace).length_le
  simp only [unquotedUrlLength?, takeWhile_isSpace_stop hf.space hblanks,
    takeWhile_isSpace_stop rfl hblanks, List.drop_append_of_le_length hle,
    head?_stop_eq hf.near (d := '"') (by decide), head?_stop_eq hf.near (d := '\'') (by decide),
    head?_stop_eq hf.far (d := '"') (by decide), head?_stop_eq hf.far (d := '\'') (by decide)]
    at h ⊢
  split
  · rfl
  · next hq =>
    have hn := h _ (if_neg hq)
    rw [urlLength_stop (hf.drop _) 0 (by rw [List.length_drop]; omega)]

/-! ## Numbers -/

theorem signScan_stop (hy : y ∈ marks) :
    Sign.scan (u ++ y :: v) = ((Sign.scan u).1, (Sign.scan u).2 ++ y :: v) := by
  cases u with
  | nil => simp [Sign.scan, mark_ne hy (d := '+') (by decide), mark_ne hy (d := '-') (by decide)]
  | cons c u =>
    simp only [List.cons_append, Sign.scan]
    split
    · rfl
    · split <;> rfl

theorem scanFraction_stop (hy : y ∈ marks) (bareDot : Bool) :
    Numeral.scanFraction bareDot (u ++ y :: v) =
      ((Numeral.scanFraction bareDot u).1, (Numeral.scanFraction bareDot u).2 ++ y :: v) := by
  have hd := not_digit_of_mark y hy
  cases u with
  | nil => simp [Numeral.scanFraction, mark_ne hy (d := '.') (by decide)]
  | cons c u =>
    simp only [List.cons_append, Numeral.scanFraction, takeWhile_stop hd, dropWhile_stop hd]
    split <;> rfl

theorem exponentScan_stop (hy : y ∈ marks) :
    Exponent.scan (u ++ y :: v) = ((Exponent.scan u).1, (Exponent.scan u).2 ++ y :: v) := by
  have hd := not_digit_of_mark y hy
  cases u with
  | nil =>
    simp [Exponent.scan, mark_ne hy (d := 'e') (by decide), mark_ne hy (d := 'E') (by decide)]
  | cons c u =>
    simp only [List.cons_append, Exponent.scan, signScan_stop hy, takeWhile_stop hd,
      dropWhile_stop hd]
    split <;> rfl

theorem numeralScan_stop (hy : y ∈ marks) (bareDot : Bool) :
    Numeral.scan bareDot (u ++ y :: v) =
      (Numeral.scan bareDot u).map fun found => (found.1, found.2 ++ y :: v) := by
  have hd := not_digit_of_mark y hy
  simp only [Numeral.scan, signScan_stop hy, takeWhile_stop hd, dropWhile_stop hd,
    scanFraction_stop hy, exponentScan_stop hy]
  split <;> rfl

theorem numericToken_stop (hf : Unseen x w y v u) (h : (numericToken (u ++ x :: w)).2 ≤ u.length) :
    numericToken (u ++ y :: v) = numericToken u := by
  simp only [numericToken, numeralScan_stop hf.near, numeralScan_stop hf.far] at h ⊢
  cases hs : Numeral.scan false u with
  | none => rfl
  | some found =>
    obtain ⟨n, rest⟩ := found
    have hsource := Numeral.source_append_of_scan hs
    have hlen := congrArg List.length hsource
    rw [List.length_append] at hlen
    have hrest : Unseen x w y v rest := hf.mono (hsource ▸ List.suffix_append n.source rest)
    simp only [hs, Option.map_some, head?_stop_eq hf.near (d := '%') (by decide),
      head?_stop_eq hf.far (d := '%') (by decide)] at h ⊢
    split
    · rfl
    · next hp =>
      rw [if_neg hp] at h
      have hname : startsName (rest ++ x :: w) = true →
          (readName (rest ++ x :: w)).2 ≤ rest.length := by
        intro hstart
        rw [if_pos hstart] at h
        simp only at h
        omega
      obtain ⟨hnear, hfar⟩ := startsName_of_readName (v := v) hrest hname
      rw [hfar]
      split
      · next hn => rw [readName_stop hrest (hname (by rw [hnear, hn]))]
      · rfl

/-! ## Tokens -/

theorem readName_le_nameToken (s : List Char) : (readName s).2 ≤ (nameToken s).2 := by
  simp only [nameToken]
  repeat' split
  all_goals simp only
  all_goals omega

theorem nameToken_stop (hf : Unseen x w y v u) (h : (nameToken (u ++ x :: w)).2 ≤ u.length) :
    nameToken (u ++ y :: v) = nameToken u := by
  have hname : (readName (u ++ x :: w)).2 ≤ u.length := Nat.le_trans (readName_le_nameToken _) h
  have hsame := readName_stop hf.refl hname
  simp only [nameToken, readName_stop hf hname, hsame] at hname h ⊢
  rw [List.drop_append_of_le_length hname] at h ⊢
  simp only [head?_stop_eq hf.near (d := '(') (by decide),
    head?_stop_eq hf.far (d := '(') (by decide)] at h ⊢
  have hdrop : (u.drop (readName u).2).length = u.length - (readName u).2 := List.length_drop
  have ht : Unseen x w y v (u.drop (readName u).2) := hf.drop _
  generalize u.drop (readName u).2 = t at h hdrop ht ⊢
  split
  · next hp =>
    obtain ⟨t, rfl⟩ := List.head?_eq_some_iff.mp hp
    simp only [List.cons_append, List.tail_cons, List.length_cons] at h hdrop ⊢
    rw [if_pos hp] at h
    split
    · next hurl =>
      rw [if_pos hurl] at h
      rw [unquotedUrlLength?_stop ht.tail fun n hn => by simp only [hn] at h; omega]
    · rfl
  · rfl

theorem take_stop_eq (hy : y ∈ marks) {n : Nat} {mark : List Char} (hn : mark.length = n)
    (hm : ∀ d ∈ mark, d ∈ wanted) : (u ++ y :: v).take n = mark ↔ u.take n = mark := by
  rcases Nat.lt_or_ge u.length n with hlt | hge
  · constructor
    · intro h
      have hmem : y ∈ (u ++ y :: v).take n := by
        rw [List.take_append, List.mem_append]
        right
        obtain ⟨k, hk⟩ : ∃ k, n - u.length = k + 1 := ⟨n - u.length - 1, by omega⟩
        simp [hk]
      exact absurd rfl (mark_ne hy (hm y (h ▸ hmem)))
    · intro h
      have := congrArg List.length h
      simp only [List.length_take] at this
      omega
  · rw [List.take_append_of_le_length hge]

theorem startsWithDigit_stop (hy : y ∈ marks) :
    startsWithDigit (u ++ y :: v) = startsWithDigit u :=
  head?_append_stop (not_digit_of_mark y hy)

theorem startsMagnitude_stop (hy : y ∈ marks) :
    startsMagnitude (u ++ y :: v) = startsMagnitude u := by
  cases u with
  | nil =>
    simp [startsMagnitude, startsWithDigit, not_digit_of_mark y hy,
      mark_ne hy (d := '.') (by decide)]
  | cons c u =>
    simp only [startsMagnitude, startsWithDigit_stop hy, List.cons_append, List.tail_cons,
      List.head?_cons]
    rfl

theorem startsNumber_stop (hy : y ∈ marks) (c : Char) :
    startsMagnitude (if c = '+' ∨ c = '-' then u ++ y :: v else c :: (u ++ y :: v)) =
      startsMagnitude (if c = '+' ∨ c = '-' then u else c :: u) := by
  split
  · exact startsMagnitude_stop hy
  · exact startsMagnitude_stop (u := c :: u) hy

theorem ite_stop {n : Nat} {p : Prop} [Decidable p]
    {near far alone near' far' alone' : Token × Nat} (h : p → near.2 ≤ n → far = alone)
    (h' : near'.2 ≤ n → far' = alone') :
    (if p then near else near').2 ≤ n →
      (if p then far else far') = if p then alone else alone' := by
  split
  · next hp => exact h hp
  · exact h'

theorem matchToken_stop (hy : y ∈ marks) (c : Char) :
    matchToken c (u ++ y :: v) = matchToken c u := by
  simp only [matchToken, head?_stop_eq hy (d := '=') (by decide)]

theorem commentToken_stop (hx : x ∈ marks) (hu : u.head? = some '*')
    (h : commentLength (u ++ x :: w).tail + 2 ≤ u.length + 1) :
    commentLength (u ++ y :: v).tail = commentLength u.tail := by
  obtain ⟨t, rfl⟩ := List.head?_eq_some_iff.mp hu
  simp only [List.cons_append, List.tail_cons, List.length_cons] at h ⊢
  exact commentLength_stop (w := w) hx (by omega)

def atToken (c : Char) (rest : List Char) : Token × Nat :=
  if startsName rest then
    let (name, length) := readName rest
    (.atKeyword name, length + 1)
  else (.delimiter c, 1)

def hashToken (c : Char) (rest : List Char) : Token × Nat :=
  if startsName rest || startsWithDigit rest || rest.head? = some '-' then
    let (name, length) := readName rest
    (.hash name, length + 1)
  else (.delimiter c, 1)

def wordToken (c : Char) (rest : List Char) : Token × Nat :=
  if startsName (c :: rest) then nameToken (c :: rest) else (.delimiter c, 1)

theorem atToken_stop (hf : Unseen x w y v u) (c : Char)
    (h : (atToken c (u ++ x :: w)).2 ≤ u.length + 1) : atToken c (u ++ y :: v) = atToken c u := by
  unfold atToken at h ⊢
  have hname : startsName (u ++ x :: w) = true → (readName (u ++ x :: w)).2 ≤ u.length := by
    intro hstart
    rw [if_pos hstart] at h
    exact Nat.le_of_succ_le_succ h
  obtain ⟨hnear, hfar⟩ := startsName_of_readName (v := v) hf hname
  rw [hfar]
  split
  · next hstart => rw [readName_stop hf (hname (by rw [hnear, hstart]))]
  · rfl

theorem hashToken_stop (hf : Unseen x w y v u) (c : Char)
    (h : (hashToken c (u ++ x :: w)).2 ≤ u.length + 1) :
    hashToken c (u ++ y :: v) = hashToken c u := by
  unfold hashToken at h ⊢
  have hname : (startsName (u ++ x :: w) || startsWithDigit (u ++ x :: w) ||
      decide ((u ++ x :: w).head? = some '-')) = true → (readName (u ++ x :: w)).2 ≤ u.length := by
    intro hstart
    rw [if_pos hstart] at h
    exact Nat.le_of_succ_le_succ h
  obtain ⟨hnear, hfar⟩ := startsName_of_readName (v := v) hf fun hstart =>
    hname (by rw [hstart]; rfl)
  simp only [hnear, startsWithDigit_stop hf.near, head?_stop_eq hf.near (d := '-') (by decide)]
    at hname
  simp only [hfar, startsWithDigit_stop hf.far, head?_stop_eq hf.far (d := '-') (by decide)]
  split
  · next hstart => rw [readName_stop hf (hname hstart)]
  · rfl

theorem wordToken_stop {c : Char} (hf : Unseen x w y v (c :: u))
    (h : (wordToken c (u ++ x :: w)).2 ≤ u.length + 1) :
    wordToken c (u ++ y :: v) = wordToken c u := by
  unfold wordToken at h ⊢
  have hname : startsName (c :: u ++ x :: w) = true →
      (nameToken (c :: u ++ x :: w)).2 ≤ (c :: u).length := by
    intro hstart
    rw [List.cons_append] at hstart
    rw [if_pos hstart] at h
    exact h
  obtain ⟨hnear, hfar⟩ := startsName_of_readName (v := v) hf fun hstart =>
    Nat.le_trans (readName_le_nameToken _) (hname hstart)
  rw [← List.cons_append, hfar]
  split
  · next hstart => rw [nameToken_stop hf (hname (by rw [hnear, hstart]))]
  · rfl

/-- A token that ends before a stop is the token that stands there without it. -/
theorem tokenAt_stop {c : Char} (hf : Unseen x w y v (c :: u)) :
    (tokenAt c (u ++ x :: w)).2 ≤ u.length + 1 → tokenAt c (u ++ y :: v) = tokenAt c u := by
  have hy := hf.far
  have hbang : ∀ d ∈ ['!', '-', '-'], d ∈ wanted := forall_mem_of_all (by decide)
  have harrow : ∀ d ∈ ['-', '>'], d ∈ wanted := forall_mem_of_all (by decide)
  simp only [tokenAt, ← wordToken.eq_def, matchToken_stop hf.near,
    head?_stop_eq hf.near (d := '*') (by decide), startsNumber_stop hf.near,
    take_stop_eq hf.near (n := 3) rfl hbang, take_stop_eq hf.near (n := 2) rfl harrow,
    matchToken_stop hy, head?_stop_eq hy (d := '*') (by decide), startsNumber_stop hy,
    take_stop_eq hy (n := 3) rfl hbang, take_stop_eq hy (n := 2) rfl harrow]
  refine ite_stop (fun _ h => ?space) <| ite_stop (fun _ h => ?string) <|
    ite_stop (fun hp h => ?comment) <| ite_stop (fun _ _ => rfl) <| ite_stop (fun _ _ => rfl) <|
    ite_stop (fun _ _ => rfl) <| ite_stop (fun _ _ => rfl) <| ite_stop (fun _ _ => rfl) <|
    ite_stop (fun _ _ => rfl) <| ite_stop (fun _ _ => rfl) <| ite_stop (fun _ _ => rfl) <|
    ite_stop (fun _ _ => rfl) <| ite_stop (fun _ h => hashToken_stop hf.tail c h) <|
    ite_stop (fun _ h => atToken_stop hf.tail c h) <|
    ite_stop (fun _ _ => rfl) <| ite_stop (fun _ _ => rfl) <|
    ite_stop (fun _ h => numericToken_stop hf h) <|
    ite_stop (fun _ _ => rfl) fun h => wordToken_stop hf h
  case space => rw [takeWhile_isSpace_stop hf.space (Nat.le_of_succ_le_succ h)]
  case string => rw [stringLength_stop hf.tail c 0 (Nat.le_of_succ_le_succ h)]
  case comment => rw [commentToken_stop hf.near hp.2 h]

/-! ## Texts -/

theorem lexemeAt_stop {c : Char} (hf : Unseen x w y v (c :: u))
    (h : (lexemeAt c (u ++ x :: w)).source.length ≤ u.length + 1) :
    lexemeAt c (u ++ y :: v) = lexemeAt c u := by
  have hlen : (tokenAt c (u ++ x :: w)).2 ≤ u.length + 1 := by
    simp only [lexemeAt, List.length_cons, List.length_take, List.length_append] at h
    omega
  have hx' := tokenAt_stop hf.refl hlen
  rw [hx'] at hlen
  simp only [lexemeAt, tokenAt_stop hf (hx' ▸ hlen)]
  rw [List.take_append_of_le_length (by omega)]

theorem source_lexemeAt_ne_nil (c : Char) (s : List Char) : (lexemeAt c s).source ≠ [] :=
  List.cons_ne_nil _ _

/-- No token of a text reaches over its end to a stop: the stop stands by itself. -/
def EndsBefore (x : Char) (text : List Char) : Prop :=
  ∃ before last, lexemes (text ++ [x]) = before ++ [last] ∧ last.source = [x]

/-- A text that ends before a stop is read as if nothing followed, and then what follows is. -/
theorem lexemes_append {t : List Char} (hf : Replaces x y t) (h : EndsBefore x t) :
    lexemes (t ++ y :: v) = lexemes t ++ lexemes (y :: v) := by
  obtain ⟨before, last, h, hlast⟩ := h
  induction before generalizing t with
  | nil =>
    have hsource := source_lexemes (t ++ [x])
    rw [h] at hsource
    obtain rfl : t = [] := by simpa [hlast] using hsource.symm
    rfl
  | cons l before ih =>
    have hsource := source_lexemes (t ++ [x])
    rw [h] at hsource
    simp only [List.cons_append, List.flatMap_cons, List.flatMap_append, List.flatMap_nil,
      List.append_nil, hlast, ← List.append_assoc, List.append_left_inj] at hsource
    cases t with
    | nil =>
      rw [List.nil_append, lexemes_cons] at h
      simp only [List.cons_append, List.cons.injEq] at h
      have hnil : l.source = [] := (List.append_eq_nil_iff.mp hsource).1
      exact absurd hnil (h.1 ▸ source_lexemeAt_ne_nil x [])
    | cons c u =>
      rw [List.cons_append, lexemes_cons] at h
      simp only [List.cons_append, List.cons.injEq] at h
      obtain ⟨rfl, hrest⟩ := h
      have hle : (lexemeAt c (u ++ [x])).source.length ≤ u.length + 1 := by
        have := congrArg List.length hsource
        simp only [List.length_append, List.length_cons] at this
        omega
      have hsuffix := (List.drop_suffix ((lexemeAt c u).source.length - 1) u).trans
        (List.suffix_cons c u)
      have hunseen : Unseen x [] y v (c :: u) := hf.unseen
      have hsame := lexemeAt_stop hunseen.refl hle
      rw [hsame] at hle hrest
      rw [List.drop_append_of_le_length (by omega)] at hrest
      rw [List.cons_append, lexemes_cons, lexemes_cons,
        lexemeAt_stop hunseen (hsame ▸ hle), List.drop_append_of_le_length (by omega),
        ih (hf.mono hsuffix) hrest]
      rfl

end ClassStyle.Css
