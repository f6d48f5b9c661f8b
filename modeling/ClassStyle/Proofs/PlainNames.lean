import ClassStyle.Proofs.Decimals
import ClassStyle.Proofs.FontSizes
import ClassStyle.Proofs.Quantities

/-!
# Names without numbers

Numbers are written in single precision, but names are written as they stand, and both are words
when lengths are read. A name without escapes and without blanks beyond ASCII holds no number. So
all lengths of the values of a block are below the bound of single precision if nothing of the
kind stands in the block (`isTameText_readBlock`).
-/

namespace ClassStyle

open Text

/-! ## Words -/

/-- No number of `2 ^ 128` or more is read at the front of the word. -/
def IsTame (word : List Char) : Prop :=
  ∀ x, readFloat? (Length.splitNumeral word).1 = some x → AtMost 128 x

/-- All words of a text are tame. -/
def IsTameText (text : List Char) : Prop := ∀ word ∈ words text, IsTame word

theorem isTame_of_no_numeral {word : List Char} (h : (Length.splitNumeral word).1 = []) :
    IsTame word := by
  intro x hx
  rw [h] at hx
  cases hx

theorem isTame_numeral {n : Numeral} (h : n.IsPlain) (hvalue : n.plainValue ≤ 2 ^ 128)
    {rest : List Char} (hrest : EndsNumeral rest) : IsTame (n.source ++ rest) := by
  have hsplit : (Length.splitNumeral (n.source ++ rest)).1 = n.source := by
    unfold Length.splitNumeral
    rw [Numeral.scan_source_append h.isCss hrest]
  obtain ⟨x, hx, hbound⟩ := exists_readFloat?_source h hvalue (by decide)
  intro y hy
  rw [hsplit, hx] at hy
  obtain rfl := Option.some.inj hy
  exact hbound

theorem isTame_writeSingle (x : Float32) {rest : List Char} (hrest : EndsNumeral rest) :
    IsTame (writeSingle x ++ rest) := by
  by_cases h : x.toModel.unpack.isFinite = true
  · obtain ⟨n, hn, htext, hvalue⟩ := exists_isPlain_writeSingle h
    rw [htext]
    exact isTame_numeral hn hvalue hrest
  · unfold writeSingle
    generalize x.toModel.unpack = u at h ⊢
    cases u with
    | notANumber => exact isTame_of_no_numeral rfl
    | infinity s => cases s <;> exact isTame_of_no_numeral rfl
    | zero s => exact absurd rfl h
    | finite s m e hm => exact absurd rfl h

/-! ## Texts of words -/

theorem isTameText_append_space {a b : List Char} (ha : IsTameText a) (hb : IsTameText b) :
    IsTameText (a ++ ' ' :: b) := by
  unfold IsTameText words
  rw [pieces_append_cons rfl]
  exact List.forall_mem_append.mpr ⟨ha, hb⟩

theorem isTameText_intercalate {ts : List (List Char)} (h : ∀ t ∈ ts, IsTameText t) :
    IsTameText ([' '].intercalate ts) := by
  induction ts with
  | nil => exact List.forall_mem_nil _
  | cons t ts ih =>
    obtain ⟨ht, h⟩ := List.forall_mem_cons.mp h
    cases ts with
    | nil => rwa [List.intercalate_singleton]
    | cons u ts =>
      rw [List.intercalate_cons_cons, List.append_assoc, List.singleton_append]
      exact isTameText_append_space ht (ih h)

theorem isTameText_of_no_blank {word : List Char} (hblank : ∀ c ∈ word, isBlank c = false)
    (h : IsTame word) : IsTameText word := by
  cases word with
  | nil => exact List.forall_mem_nil _
  | cons c word =>
    unfold IsTameText words
    rw [pieces_of_no_cut (List.cons_ne_nil _ _) hblank]
    exact List.forall_mem_singleton.mpr h

theorem forall_mem_setLastUnit {p : Float → Prop} (unit : LengthUnit) {lengths : List Length}
    (h : ∀ length ∈ lengths, p length.value) :
    ∀ length ∈ Length.setLastUnit unit lengths, p length.value := by
  induction lengths with
  | nil => exact h
  | cons first rest ih =>
    obtain ⟨hfirst, hrest⟩ := List.forall_mem_cons.mp h
    cases rest with
    | nil => exact List.forall_mem_singleton.mpr hfirst
    | cons second rest => exact List.forall_mem_cons.mpr ⟨hfirst, ih hrest⟩

theorem forall_mem_readAll {p : Float → Prop} {text : List Char}
    (h : ∀ word ∈ words text, ∀ x, readFloat? (Length.splitNumeral word).1 = some x → p x) :
    ∀ length ∈ Length.readAll text, p length.value := by
  have hfold : ∀ (ws : List (List Char)) (r : Length.Reading),
      (∀ word ∈ ws, ∀ x, readFloat? (Length.splitNumeral word).1 = some x → p x) →
      (∀ length ∈ r.lengths, p length.value) →
      ∀ length ∈ (ws.foldl Length.Reading.word r).lengths, p length.value := by
    intro ws
    induction ws with
    | nil => exact fun r _ hr => hr
    | cons word ws ih =>
      intro r hws hr
      obtain ⟨hword, hws⟩ := List.forall_mem_cons.mp hws
      refine ih _ hws ?_
      unfold Length.Reading.word
      simp only
      split
      · split
        · exact forall_mem_setLastUnit _ hr
        · exact hr
      · split
        · next x hx =>
          exact List.forall_mem_append.mpr ⟨hr, List.forall_mem_singleton.mpr (hword x hx)⟩
        · exact hr
  exact hfold _ _ h (List.forall_mem_nil _)

/-! ## Names -/

/-- The character stands for itself in a name, and is no blank there. -/
def isPlain (c : Char) : Bool := c ≠ '\\' && (!isBlank c || c.toNat < 0x80)

/-- No blanks, and something at the front that starts no number. -/
structure IsWordy (name : List Char) : Prop where
  no_blank : ∀ c ∈ name, isBlank c = false
  front : ∃ c rest, isDigit c = false ∧ c ≠ '.' ∧
    (name = '-' :: c :: rest ∨ name = c :: rest ∧ c ≠ '+' ∧ c ≠ '-')

theorem IsWordy.splitNumeral {name : List Char} (h : IsWordy name) :
    (Length.splitNumeral name).1 = [] := by
  obtain ⟨c, rest, hdigit, hdot, rfl | ⟨rfl, hplus, hminus⟩⟩ := h.front
  · simp [Length.splitNumeral, Numeral.scan, Sign.scan, Numeral.scanFraction, hdigit, hdot]
  · rw [splitNumeral_of_head hdigit ⟨hplus, hminus, hdot⟩]

theorem IsWordy.isTameText {name : List Char} (h : IsWordy name) : IsTameText name :=
  isTameText_of_no_blank h.no_blank (isTame_of_no_numeral h.splitNumeral)

theorem lowerChar_cases (c : Char) : lowerChar c = c ∨ isLetter c = true := by
  unfold lowerChar
  split
  · next h =>
    right
    simp [isLetter, h.1, h.2]
  · exact .inl rfl

theorem IsWordy.lower {name : List Char} (h : IsWordy name) : IsWordy (lower name) := by
  constructor
  · intro c hc
    obtain ⟨d, hd, rfl⟩ := List.mem_map.mp hc
    rcases lowerChar_cases d with hsame | hletter
    · rw [hsame]
      exact h.no_blank d hd
    · exact (lower_isLetter hletter).1
  · obtain ⟨c, rest, hdigit, hdot, hname⟩ := h.front
    have hlower : isDigit (lowerChar c) = false ∧ lowerChar c ≠ '.' ∧
        (c ≠ '+' ∧ c ≠ '-' → lowerChar c ≠ '+' ∧ lowerChar c ≠ '-') := by
      rcases lowerChar_cases c with hsame | hletter
      · rw [hsame]
        exact ⟨hdigit, hdot, id⟩
      · obtain ⟨-, hdigit, ⟨hplus, hminus, hdot⟩, -⟩ := lower_isLetter hletter
        exact ⟨hdigit, hdot, fun _ => ⟨hplus, hminus⟩⟩
    obtain ⟨hdigit, hdot, hsign⟩ := hlower
    refine ⟨lowerChar c, Text.lower rest, hdigit, hdot, ?_⟩
    rcases hname with rfl | ⟨rfl, hplus⟩
    · exact .inl rfl
    · exact .inr ⟨rfl, hsign hplus⟩

namespace Css

open Component

/-- How a character of a name is read. -/
def nameChar (c : Char) : Char := if c = '\x00' then replacement else c

theorem nameChars_plain {s : List Char} (h : ∀ c ∈ s, isPlain c = true) :
    (nameChars 0 s).map Prod.fst = (s.takeWhile isNameChar).map nameChar := by
  induction s with
  | nil => rfl
  | cons c s ih =>
    obtain ⟨hc, h⟩ := List.forall_mem_cons.mp h
    have hescape : c ≠ '\\' := by
      rintro rfl
      cases hc
    cases hname : isNameChar c with
    | true => simp [nameChars, nameChar?, hescape, hname, ih h, nameChar]
    | false => simp [nameChars, nameChar?, hescape, hname]

theorem readName_plain {s : List Char} (h : ∀ c ∈ s, isPlain c = true) :
    (readName s).1.toList = (s.takeWhile isNameChar).map nameChar := by
  rw [← nameChars_plain h]
  exact String.toList_ofList

theorem nameChar_of_le {c : Char} (h : 0x80 ≤ c.toNat) : nameChar c = c := by
  unfold nameChar
  rw [if_neg]
  rintro rfl
  exact absurd h (by decide)

theorem isBlank_nameChar {c : Char} (hname : isNameChar c = true) (hplain : isPlain c = true) :
    isBlank (nameChar c) = false := by
  by_cases hc : c.toNat < 0x80
  · refine forall_ascii (p := fun c => isNameChar c = true → isBlank (nameChar c) = false) ?_ hc
      hname
    decide
  · rw [nameChar_of_le (Nat.le_of_not_lt hc)]
    simpa [isPlain, hc] using (Bool.and_eq_true_iff.mp hplain).2

theorem nameChar_start {c : Char} (h : isNameStart c = true) : isDigit (nameChar c) = false ∧
    nameChar c ≠ '.' ∧ nameChar c ≠ '+' ∧ nameChar c ≠ '-' := by
  by_cases hc : c.toNat < 0x80
  · refine forall_ascii (p := fun c => isNameStart c = true → isDigit (nameChar c) = false ∧
      nameChar c ≠ '.' ∧ nameChar c ≠ '+' ∧ nameChar c ≠ '-') ?_ hc h
    decide
  · have hle := Nat.le_of_not_lt hc
    rw [nameChar_of_le hle]
    refine ⟨?_, ?_, ?_, ?_⟩
    · by_contra hdigit
      have hrange := toNat_of_isDigit (Bool.eq_true_of_not_eq_false hdigit)
      omega
    all_goals
      rintro rfl
      exact absurd hle (by decide)

theorem readName_no_blank {s : List Char} (h : ∀ c ∈ s, isPlain c = true) :
    ∀ c ∈ (readName s).1.toList, isBlank c = false := by
  rw [readName_plain h]
  intro c hc
  obtain ⟨d, hd, rfl⟩ := List.mem_map.mp hc
  have hname := List.all_eq_true.mp List.all_takeWhile d hd
  exact isBlank_nameChar hname (h d ((List.takeWhile_sublist _).subset hd))

theorem isWordy_readName {s : List Char} (h : ∀ c ∈ s, isPlain c = true)
    (hstart : startsName s = true) : IsWordy (readName s).1.toList := by
  refine ⟨readName_no_blank h, ?_⟩
  rw [readName_plain h]
  cases s with
  | nil => cases hstart
  | cons c s =>
    obtain ⟨hc, htail⟩ := List.forall_mem_cons.mp h
    have hescape : ∀ d, isPlain d = true → d ≠ '\\' := by
      rintro d hd rfl
      cases hd
    simp only [startsName] at hstart
    split at hstart
    · next hdash =>
      subst hdash
      cases s with
      | nil => cases hstart
      | cons d s =>
        have hd := htail d List.mem_cons_self
        have hd' : isNameStart d = true ∨ d = '-' := by
          simpa [hescape d hd] using hstart
        have hname : isNameChar d = true := by
          rcases hd' with hd' | rfl
          · simp [isNameChar, hd']
          · rfl
        have hfront : isDigit (nameChar d) = false ∧ nameChar d ≠ '.' := by
          rcases hd' with hd' | rfl
          · exact ⟨(nameChar_start hd').1, (nameChar_start hd').2.1⟩
          · decide
        -- What comes behind the dash starts no number, so the dash is no sign of one.
        rw [List.takeWhile_cons_of_pos rfl, List.takeWhile_cons_of_pos hname]
        exact ⟨_, _, hfront.1, hfront.2, .inl rfl⟩
    · have hc' : isNameStart c = true := by simpa [hescape c hc] using hstart
      obtain ⟨hdigit, hdot, hsign⟩ := nameChar_start hc'
      rw [List.takeWhile_cons_of_pos (by simp [isNameChar, hc'])]
      exact ⟨_, _, hdigit, hdot, .inr ⟨rfl, hsign⟩⟩

/-! ## Tokens -/

/-- The names that are written for a token hold no numbers. -/
def Token.HasPlainNames : Token → Prop
  | .ident name => IsWordy name.toList
  | .dimension _ unit => IsWordy unit.toList
  | .hash name => ∀ c ∈ name.toList, isBlank c = false
  | _ => True

theorem hasPlainNames_numericToken {s : List Char} (h : ∀ c ∈ s, isPlain c = true) :
    (numericToken s).1.HasPlainNames := by
  unfold numericToken
  split
  · trivial
  · next n rest hscan =>
    have hsource := Numeral.source_append_of_scan hscan
    simp only
    split
    · trivial
    · split
      · next hname =>
        refine isWordy_readName (fun c hc => h c ?_) hname
        rw [← hsource]
        exact List.mem_append_right _ hc
      · trivial

theorem hasPlainNames_nameToken {s : List Char} (h : ∀ c ∈ s, isPlain c = true)
    (hstart : startsName s = true) : (nameToken s).1.HasPlainNames := by
  have hname := isWordy_readName h hstart
  unfold nameToken
  simp only
  split
  · split
    · split <;> trivial
    · trivial
  · exact hname

theorem hasPlainNames_lexemeAt {c : Char} {rest : List Char}
    (h : ∀ d ∈ c :: rest, isPlain d = true) : (lexemeAt c rest).token.HasPlainNames := by
  show (tokenAt c rest).1.HasPlainNames
  fun_cases tokenAt c rest <;> try trivial
  case case13 hread =>
    have hname := readName_no_blank (List.forall_mem_cons.mp h).2
    rwa [hread] at hname
  case case17 =>
    unfold matchToken
    split <;> trivial
  case case19 => exact hasPlainNames_numericToken h
  case case21 hstart => exact hasPlainNames_nameToken h hstart

/-! ## What is written -/

/-- All that is written is tame. -/
structure Written.IsTame (w : Written) : Prop where
  pieces : ∀ piece ∈ w.pieces, IsTameText piece
  opacity : ∀ alpha ∈ w.opacity, IsTameText alpha

theorem isTameText_writeSingle (x : Float32) : IsTameText (writeSingle x) := by
  have hnil : EndsNumeral [] := endsNumeral_of_head (by simp)
  have hword := isTame_writeSingle x hnil
  rw [List.append_nil] at hword
  exact isTameText_of_no_blank (printed_writeSingle x).no_blank hword

theorem isTameText_percentText (n : Numeral) : IsTameText (percentText n) := by
  unfold percentText
  split
  · obtain ⟨m, hm, htext, hvalue⟩ := exists_isPlain_limitInteger n.integerValue
    have hnil : EndsNumeral [] := endsNumeral_of_head (by simp)
    have hword := isTame_numeral hm hvalue hnil
    rw [List.append_nil] at hword
    rw [htext]
    exact isTameText_of_no_blank (Printed.numeral hm).no_blank hword
  · exact isTameText_writeSingle _

theorem Written.IsTame.append {a b : Written} (ha : a.IsTame) (hb : b.IsTame) :
    (a ++ b).IsTame :=
  ⟨List.forall_mem_append.mpr ⟨ha.pieces, hb.pieces⟩,
    fun alpha halpha => (mem_opacity_append halpha).elim (ha.opacity alpha) (hb.opacity alpha)⟩

theorem isTame_silent {w : Written} (hpieces : w.pieces = []) (h : w.opacity = none) :
    w.IsTame := by
  constructor
  · simp [hpieces]
  · simp [h]

theorem isTame_piece {text : List Char} (h : IsTameText text) : (Written.piece text).IsTame := by
  constructor
  · simpa [Written.piece] using h
  · simp [Written.piece]

theorem isTame_writeColor (reference : List Component → Written) (arguments : List Component) :
    (writeColor reference arguments).IsTame := by
  have hchannels := wellFormed_channels reference arguments
  unfold writeColor Channels.written
  split
  · next r g b rest htexts =>
    obtain ⟨x, rfl⟩ := hchannels r (by simp [htexts])
    obtain ⟨y, rfl⟩ := hchannels g (by simp [htexts])
    obtain ⟨z, rfl⟩ := hchannels b (by simp [htexts])
    have htext : [','].intercalate [writeSingle x, writeSingle y, writeSingle z] =
        writeSingle x ++ ',' :: (writeSingle y ++ ',' :: writeSingle z) := by
      simp [List.intercalate]
    have hblank : ∀ t : Float32, ∀ c ∈ writeSingle t, isBlank c = false :=
      fun t => (printed_writeSingle t).no_blank
    rw [htext]
    constructor
    · refine List.forall_mem_singleton.mpr (isTameText_of_no_blank ?_ ?_)
      · refine List.forall_mem_append.mpr ⟨hblank x, List.forall_mem_cons.mpr ⟨rfl, ?_⟩⟩
        exact List.forall_mem_append.mpr ⟨hblank y, List.forall_mem_cons.mpr ⟨rfl, hblank z⟩⟩
      · exact isTame_writeSingle x (endsNumeral_of_head (by simp [isDigit]))
    · intro alpha halpha
      have hmem : alpha ∈ rest := List.mem_of_mem_head? halpha
      obtain ⟨a, rfl⟩ := hchannels alpha (by simp [htexts, hmem])
      exact isTameText_writeSingle a
  · exact isTame_silent rfl rfl

theorem isTame_writeToken {token : Token} (h : token.HasPlainNames) :
    (writeToken token).IsTame := by
  have hmark : ∀ c : Char, c ∈ [',', '/', '*', '+', '-', '%'] → IsTameText [c] := by
    have hall : ∀ c ∈ [',', '/', '*', '+', '-', '%'],
        isBlank c = false ∧ (Length.splitNumeral [c]).1 = [] := forall_mem_of_all (by decide)
    intro c hc
    obtain ⟨hblank, hnumeral⟩ := hall c hc
    exact isTameText_of_no_blank (List.forall_mem_singleton.mpr hblank)
      (isTame_of_no_numeral hnumeral)
  cases token with
  | dimension n unit =>
    exact isTame_piece (isTameText_append_space (isTameText_writeSingle _) h.lower.isTameText)
  | percentage n =>
    exact isTame_piece (isTameText_append_space (isTameText_percentText n) (hmark _ (by decide)))
  | number n => exact isTame_piece (isTameText_writeSingle _)
  | ident name => exact isTame_piece h.isTameText
  | hash name =>
    refine isTame_piece (isTameText_of_no_blank ?_ (isTame_of_no_numeral ?_))
    · exact List.forall_mem_cons.mpr ⟨rfl, h⟩
    · rw [splitNumeral_of_head rfl (by decide)]
  | comma => exact isTame_piece (hmark _ (by decide))
  | delimiter c =>
    simp only [writeToken]
    split
    · next hc =>
      refine isTame_piece (hmark c ?_)
      rcases hc with rfl | rfl | rfl | rfl <;> decide
    · exact isTame_silent rfl rfl
  | _ => exact isTame_silent rfl rfl

theorem isTame_writeValue {custom : SortedMap String}
    (hcustom : ∀ entry ∈ custom.entries, ∀ c ∈ entry.2.toList, isPlain c = true)
    {text : List Char} (h : ∀ c ∈ text, isPlain c = true) : (writeValue custom text).IsTame :=
  forall_writeText ⟨.append, isTame_silent, isTame_writeColor⟩
    (fun _ _ hchars => isTame_writeToken (hasPlainNames_lexemeAt hchars)) hcustom _ _ h

/-! ## Blocks -/

/-- The components of the value that is being read. -/
def ChunkState.read : ChunkState → List Component
  | .inValue _ read => read.reverse
  | _ => []

theorem declared_sublist {state : ChunkState} {cs : List Component} {name : String}
    {value : List Char} (h : .declared name value ∈ chunksFrom state cs) :
    value.Sublist (sourceAll (state.read ++ cs)) := by
  have hmore : ∀ {c : Component} {rest : List Component},
      value.Sublist (sourceAll rest) → value.Sublist (sourceAll (c :: rest)) :=
    fun h => h.trans (sourceAll_sublist (List.sublist_cons_self _ _))
  fun_induction chunksFrom state cs with
  | case1 => cases h
  | case2 => cases List.mem_singleton.mp h
  | case3 name' read =>
    cases List.mem_singleton.mp h
    rw [List.append_nil]
    exact List.Sublist.refl _
  | case4 => cases h
  | case5 _ _ _ ih => exact hmore (ih h)
  | case6 _ _ _ _ _ ih => exact hmore (ih h)
  | case7 _ _ _ _ ih =>
    rcases List.mem_cons.mp h with heq | h
    · cases heq
    · exact hmore (ih h)
  | case8 _ _ _ _ ih => exact hmore (ih h)
  | case9 _ _ _ _ _ ih => exact hmore (ih h)
  | case10 _ _ _ _ _ ih =>
    rcases List.mem_cons.mp h with heq | h
    · cases heq
    · exact hmore (ih h)
  | case11 name' read c rest _ ih =>
    rcases List.mem_cons.mp h with heq | h
    · cases heq
      exact sourceAll_sublist (List.sublist_append_left _ _)
    · refine (hmore (c := c) (ih h)).trans (sourceAll_sublist ?_)
      exact List.sublist_append_right _ _
  | case12 name' read c rest _ ih =>
    have hread := ih h
    rwa [ChunkState.read, List.reverse_cons, List.append_assoc] at hread
  | case13 c rest ih =>
    have hread := ih h
    split at hread <;> exact hmore hread

theorem declared_sublist_chunks {body : List Component} {name : String} {value : List Char}
    (h : .declared name value ∈ chunks body) : value.Sublist (sourceAll body) :=
  declared_sublist h

theorem isPlain_customOf {body : List Component} (h : ∀ c ∈ sourceAll body, isPlain c = true) :
    ∀ entry ∈ (customOf (chunks body)).entries, ∀ c ∈ entry.2.toList, isPlain c = true := by
  intro entry hentry
  obtain ⟨chunk, hchunk, hcustom⟩ := List.mem_filterMap.mp (SortedMap.mem_ofList hentry)
  cases chunk with
  | declared name value =>
    simp only [Chunk.custom?] at hcustom
    split at hcustom
    · obtain rfl := Option.some.inj hcustom
      intro c hc
      rw [String.toList_ofList] at hc
      exact h c ((declared_sublist_chunks hchunk).subset ((trim_sublist value).subset hc))
    · cases hcustom
  | nameless => cases hcustom
  | colonless => cases hcustom

/-- A block without escapes and without blanks beyond ASCII holds no large numbers. -/
theorem isTameText_readBlock {body : List Component} (h : ∀ c ∈ sourceAll body, isPlain c = true)
    {entry : String × String} (hentry : entry ∈ (readBlock body).1.declarations.entries) :
    IsTameText entry.2.toList := by
  obtain ⟨d, hd, hmem⟩ := List.mem_flatMap.mp (ArrivalMap.mem_ofList hentry)
  obtain ⟨declaration, hdeclaration, rfl⟩ := List.mem_map.mp hd
  obtain ⟨chunk, hchunk, hsome⟩ := List.mem_filterMap.mp hdeclaration
  have htame : (writeValue (customOf (chunks body)) declaration.2).IsTame := by
    refine isTame_writeValue (isPlain_customOf h) fun c hc => h c ?_
    cases chunk with
    | declared name value =>
      simp only [Chunk.declaration?] at hsome
      split at hsome
      · cases hsome
      · obtain rfl := Option.some.inj hsome
        exact (declared_sublist_chunks hchunk).subset hc
    | nameless => cases hsome
    | colonless => cases hsome
  generalize writeValue (customOf (chunks body)) declaration.2 = written at htame hmem
  unfold entriesOf at hmem
  split at hmem
  · cases hmem
  · rcases List.mem_cons.mp hmem with rfl | hmem
    · rw [String.toList_ofList]
      exact isTameText_intercalate htame.pieces
    · obtain ⟨alpha, halpha, rfl⟩ := Option.map_eq_some_iff.mp (Option.mem_toList.mp hmem)
      rw [String.toList_ofList]
      exact htame.opacity alpha halpha

end Css

end ClassStyle
