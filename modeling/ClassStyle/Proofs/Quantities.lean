import ClassStyle.Proofs.Magnitudes
import ClassStyle.Proofs.Paints
import ClassStyle.Proofs.Tokens

/-!
# Lengths written and read back

The reader of stylesheets writes a number apart from its unit, and the reader of lengths puts the
two together again. Of a list of numbers with and without units it reads as many lengths as there
are finite numbers, in their order, each with the unit of its own (`readAll_quantities`).
-/

namespace ClassStyle

open Text

/-! ## Words -/

theorem words_intercalate {ws : List (List Char)}
    (h : ∀ w ∈ ws, w ≠ [] ∧ ∀ c ∈ w, isBlank c = false) :
    words ([' '].intercalate ws) = ws := by
  induction ws with
  | nil => rfl
  | cons w ws ih =>
    obtain ⟨⟨hne, hblank⟩, hws⟩ := List.forall_mem_cons.mp h
    cases ws with
    | nil =>
      rw [List.intercalate_singleton]
      exact pieces_of_no_cut hne hblank
    | cons v ws =>
      rw [List.intercalate_cons_cons, List.append_assoc, List.singleton_append]
      exact (pieces_append_cut hne hblank rfl).trans (congrArg _ (ih hws))

theorem splitNumeral_of_head {c : Char} {s : List Char} (hdigit : isDigit c = false)
    (hc : c ≠ '+' ∧ c ≠ '-' ∧ c ≠ '.') : Length.splitNumeral (c :: s) = ([], c :: s) := by
  obtain ⟨hplus, hminus, hdot⟩ := hc
  simp [Length.splitNumeral, Numeral.scan, Sign.scan, Numeral.scanFraction, hplus, hminus, hdot,
    hdigit]

theorem toNat_lt_of_isLetter {c : Char} (h : isLetter c = true) : c.toNat < 128 := by
  simp only [isLetter, Bool.or_eq_true, Bool.and_eq_true, decide_eq_true_eq] at h
  rcases h with ⟨-, hz⟩ | ⟨-, hz⟩
  · exact Nat.lt_of_le_of_lt hz (by decide)
  · exact Nat.lt_of_le_of_lt hz (by decide)

theorem lower_isLetter {c : Char} (hc : isLetter c = true) :
    isBlank (lowerChar c) = false ∧ isDigit (lowerChar c) = false ∧
      (lowerChar c ≠ '+' ∧ lowerChar c ≠ '-' ∧ lowerChar c ≠ '.') ∧
      lowerChar (lowerChar c) = lowerChar c := by
  refine forall_ascii (p := fun c => isLetter c = true → isBlank (lowerChar c) = false ∧
    isDigit (lowerChar c) = false ∧
    (lowerChar c ≠ '+' ∧ lowerChar c ≠ '-' ∧ lowerChar c ≠ '.') ∧
    lowerChar (lowerChar c) = lowerChar c) ?_ (toNat_lt_of_isLetter hc) hc
  decide

/-! ## Quantities -/

theorem exists_isPlain_integerText (i : Int) :
    ∃ n : Numeral, n.IsPlain ∧ Css.integerText i = n.source := by
  have hplain : Numeral.IsPlain ⟨none, Nat.toDigits 10 i.natAbs, none, none⟩ :=
    ⟨by simp, fun c hc => isDigit_of_mem_toDigits hc, by simp, rfl⟩
  by_cases h : i < 0
  · obtain ⟨n, hn, htext, -⟩ := exists_isPlain_signed .negative hplain
    refine ⟨n, hn, ?_⟩
    rw [← htext, Css.integerText, if_pos h, Numeral.fractionSource, List.append_nil, signed]
  · obtain ⟨n, hn, htext, -⟩ := exists_isPlain_signed .positive hplain
    refine ⟨n, hn, ?_⟩
    rw [← htext, Css.integerText, if_neg h, Numeral.fractionSource, List.append_nil, signed]

/-- A number, a percentage, or a number with a unit. -/
inductive Quantity where
  | number (n : Numeral)
  | percentage (n : Numeral)
  | dimension (n : Numeral) (unit : String)
  deriving DecidableEq

namespace Quantity

def numeral : Quantity → Numeral
  | number n | percentage n | dimension n _ => n

/-- The unit has letters of ASCII alone, and at least one. -/
def IsLettered : Quantity → Prop
  | dimension _ unit => unit.toList ≠ [] ∧ ∀ c ∈ unit.toList, isLetter c = true
  | _ => True

def token : Quantity → Css.Token
  | number n => .number n
  | percentage n => .percentage n
  | dimension n unit => .dimension n unit

/-- The text that is written for the number. -/
def numberText : Quantity → List Char
  | number n | dimension n _ => Css.numberText n
  | percentage n => Css.percentText n

/-- The text that is written for the unit, if there is one. -/
def unitText : Quantity → List (List Char)
  | number _ => []
  | percentage _ => [['%']]
  | dimension _ unit => [lower unit.toList]

def unit : Quantity → LengthUnit
  | number _ => .px
  | percentage _ => .percent
  | dimension _ unit => .ofName unit.toList

/-- The length that is read: none if the text of the number is that of no number. -/
def length? (q : Quantity) : Option Length :=
  (Length.read? q.numberText).map fun length => ⟨length.value, q.unit⟩

variable {q : Quantity}

theorem printed_numberText (q : Quantity) : Printed q.numberText := by
  cases q with
  | number n => exact printed_writeSingle _
  | dimension n unit => exact printed_writeSingle _
  | percentage n =>
    show Printed (Css.percentText n)
    unfold Css.percentText
    split
    · obtain ⟨m, hplain, htext⟩ := exists_isPlain_integerText (Css.limitInteger n.integerValue)
      rw [htext]
      exact .numeral hplain
    · exact printed_writeSingle _

theorem unitText_word (h : q.IsLettered) : ∀ w ∈ q.unitText,
    (w ≠ [] ∧ ∀ c ∈ w, isBlank c = false) ∧ Length.splitNumeral w = ([], w) ∧
      LengthUnit.ofName w = q.unit := by
  intro w hw
  cases q with
  | number n => cases hw
  | percentage n =>
    obtain rfl := List.mem_singleton.mp hw
    exact ⟨⟨by decide, Css.forall_mem_of_all rfl⟩, splitNumeral_of_head rfl (by decide), rfl⟩
  | dimension n unit =>
    obtain ⟨hne, hletters⟩ := h
    obtain rfl := List.mem_singleton.mp hw
    refine ⟨⟨?_, ?_⟩, ?_, ?_⟩
    · simpa [lower] using hne
    · intro c hc
      obtain ⟨d, hd, rfl⟩ := List.mem_map.mp hc
      exact (lower_isLetter (hletters d hd)).1
    · obtain ⟨c, s, heq⟩ := List.exists_cons_of_ne_nil hne
      obtain ⟨-, hdigit, hsign, -⟩ := lower_isLetter (hletters c (by rw [heq]; simp))
      rw [heq]
      exact splitNumeral_of_head hdigit hsign
    · have hlower : lower (lower unit.toList) = lower unit.toList := by
        unfold lower
        rw [List.map_map]
        exact List.map_congr_left fun c hc => (lower_isLetter (hletters c hc)).2.2.2
      show LengthUnit.ofName (lower unit.toList) = LengthUnit.ofName unit.toList
      unfold LengthUnit.ofName
      rw [hlower]

end Quantity

/-! ## Reading a list of quantities -/

theorem setLastUnit_concat (unit : LengthUnit) (lengths : List Length) (last : Length) :
    Length.setLastUnit unit (lengths ++ [last]) = lengths ++ [{ last with unit }] := by
  induction lengths with
  | nil => rfl
  | cons first rest ih =>
    cases rest with
    | nil => rfl
    | cons second rest => exact congrArg (first :: ·) ih

/-- A length that may still get a unit has none yet. -/
def Length.Reading.Settled (r : Length.Reading) : Prop :=
  r.awaitsUnit = true → ∀ length ∈ r.lengths.getLast?, length.unit = .px

theorem setLastUnit_settled {lengths : List Length}
    (h : ∀ length ∈ lengths.getLast?, length.unit = .px) :
    Length.setLastUnit .px lengths = lengths := by
  rcases List.eq_nil_or_concat lengths with rfl | ⟨before, last, rfl⟩
  · rfl
  · have hunit : last.unit = .px := h last (by simp)
    rw [List.concat_eq_append, setLastUnit_concat, ← hunit]

theorem word_unit {w : List Char} (h : Length.splitNumeral w = ([], w)) (r : Length.Reading) :
    r.word w = ⟨if r.awaitsUnit then Length.setLastUnit (.ofName w) r.lengths else r.lengths,
      false⟩ := by
  unfold Length.Reading.word
  rw [h]
  rfl

/-- What is printed of a number that is not finite is like an unknown unit. -/
theorem word_unknown {w : List Char} (h : Length.splitNumeral w = ([], w))
    (hunit : LengthUnit.ofName w = .px) {r : Length.Reading} (hr : r.Settled) :
    r.word w = ⟨r.lengths, false⟩ := by
  rw [word_unit h, hunit]
  cases hawaits : r.awaitsUnit with
  | false => rfl
  | true => rw [if_pos rfl, setLastUnit_settled (hr hawaits)]

theorem word_numberText (q : Quantity) {r : Length.Reading} (hr : r.Settled) :
    (∃ x, q.length? = some ⟨x, q.unit⟩ ∧
      r.word q.numberText = ⟨r.lengths ++ [⟨x, .px⟩], true⟩) ∨
    (q.length? = none ∧ r.word q.numberText = ⟨r.lengths, false⟩) := by
  have hprinted := q.printed_numberText
  unfold Quantity.length?
  generalize q.numberText = text at hprinted ⊢
  cases hprinted with
  | numeral h =>
    obtain ⟨x, hx, hread⟩ := Length.read?_numeral h
    refine .inl ⟨x, by rw [hread, Option.map_some], ?_⟩
    unfold Length.Reading.word Length.splitNumeral
    rw [Numeral.scan_source h]
    simp only
    rw [if_neg (Printed.numeral h).ne_nil, hx]
    rfl
  | nan => exact .inr ⟨rfl, word_unknown rfl rfl hr⟩
  | infinite => exact .inr ⟨rfl, word_unknown rfl rfl hr⟩
  | negativeInfinite => exact .inr ⟨rfl, word_unknown rfl rfl hr⟩

theorem foldl_quantity {q : Quantity} (h : q.IsLettered) {r : Length.Reading}
    (hr : r.Settled) :
    ∃ awaits, (q.numberText :: q.unitText).foldl Length.Reading.word r =
        ⟨r.lengths ++ q.length?.toList, awaits⟩ ∧
      Length.Reading.Settled ⟨r.lengths ++ q.length?.toList, awaits⟩ := by
  have hunit := Quantity.unitText_word h
  have hbare : q.unitText = [] ∧ q.unit = .px ∨ ∃ w, q.unitText = [w] := by
    cases q with
    | number n => exact .inl ⟨rfl, rfl⟩
    | percentage n => exact .inr ⟨_, rfl⟩
    | dimension n unit => exact .inr ⟨_, rfl⟩
  rw [List.foldl_cons]
  rcases word_numberText q hr with ⟨x, hlength, hword⟩ | ⟨hlength, hword⟩
  · rw [hword, hlength]
    rcases hbare with ⟨hnil, hpx⟩ | ⟨w, hw⟩
    · rw [hnil, hpx]
      refine ⟨true, rfl, fun _ length hlast => ?_⟩
      simp at hlast
      rw [← hlast]
    · obtain ⟨-, hsplit, hname⟩ := hunit w (by simp [hw])
      rw [hw, List.foldl_cons, List.foldl_nil, word_unit hsplit, hname]
      refine ⟨false, ?_, fun hawaits => by cases hawaits⟩
      rw [if_pos rfl, setLastUnit_concat]
      rfl
  · rw [hword, hlength]
    refine ⟨false, ?_, fun hawaits => by cases hawaits⟩
    rcases hbare with ⟨hnil, -⟩ | ⟨w, hw⟩
    · simp [hnil]
    · obtain ⟨-, hsplit, -⟩ := hunit w (by simp [hw])
      rw [hw, List.foldl_cons, List.foldl_nil, word_unit hsplit]
      simp

theorem foldl_quantities {qs : List Quantity} (h : ∀ q ∈ qs, q.IsLettered)
    {r : Length.Reading} (hr : r.Settled) :
    ((qs.flatMap fun q => q.numberText :: q.unitText).foldl Length.Reading.word r).lengths =
      r.lengths ++ qs.filterMap Quantity.length? := by
  induction qs generalizing r with
  | nil => simp
  | cons q qs ih =>
    obtain ⟨hq, hqs⟩ := List.forall_mem_cons.mp h
    obtain ⟨awaits, hfold, hsettled⟩ := foldl_quantity hq hr
    rw [List.flatMap_cons, List.foldl_append, hfold, ih hqs hsettled, List.append_assoc]
    cases hlength : q.length? with
    | none => simp [hlength]
    | some length => simp [hlength]

/-- Numbers and units with one space between them are read as the lengths of the numbers that are
finite. -/
theorem readAll_quantities {qs : List Quantity} (h : ∀ q ∈ qs, q.IsLettered) :
    Length.readAll ([' '].intercalate (qs.flatMap fun q => q.numberText :: q.unitText)) =
      qs.filterMap Quantity.length? := by
  have hwords : ∀ w ∈ qs.flatMap fun q => q.numberText :: q.unitText,
      w ≠ [] ∧ ∀ c ∈ w, isBlank c = false := by
    intro w hw
    obtain ⟨q, hq, hw⟩ := List.mem_flatMap.mp hw
    rcases List.mem_cons.mp hw with rfl | hw
    · exact ⟨q.printed_numberText.ne_nil, q.printed_numberText.no_blank⟩
    · exact (Quantity.unitText_word (h q hq) w hw).1
  have hstart : Length.Reading.Settled ⟨[], false⟩ := fun hawaits => by cases hawaits
  unfold Length.readAll
  rw [words_intercalate hwords, foldl_quantities h hstart, List.nil_append]

/-! ## Finite numbers -/

/-- The number is finite in single precision, and below `10 ^ 38`. -/
def Quantity.IsModest (q : Quantity) : Prop :=
  ∃ x ∈ magnitude? (Css.singleValue q.numeral).toModel.unpack, x < 10 ^ 38

instance : DecidablePred Quantity.IsModest := fun q =>
  inferInstanceAs (Decidable (∃ x ∈ magnitude? (Css.singleValue q.numeral).toModel.unpack, _))

theorem exists_isPlain_numberText {q : Quantity} (h : q.IsModest) :
    ∃ n : Numeral, n.IsPlain ∧ q.numberText = n.source := by
  obtain ⟨x, hx, hlt⟩ := h
  have hsingle : (Css.singleValue q.numeral).toModel.unpack.isFinite = true :=
    isFinite_of_magnitude? hx
  cases q with
  | number n => exact exists_isPlain_writeNumber _ hsingle
  | dimension n unit => exact exists_isPlain_writeNumber _ hsingle
  | percentage n =>
    show ∃ m : Numeral, m.IsPlain ∧ Css.percentText n = m.source
    unfold Css.percentText
    split
    · exact exists_isPlain_integerText _
    · exact exists_isPlain_writeNumber _ (isFinite_percent hx hlt)

theorem length?_of_isModest {q : Quantity} (h : q.IsModest) :
    ∃ x, readFloat? q.numberText = some x ∧ q.length? = some ⟨x, q.unit⟩ := by
  obtain ⟨n, hplain, htext⟩ := exists_isPlain_numberText h
  obtain ⟨x, hx, hread⟩ := Length.read?_numeral hplain
  refine ⟨x, by rw [htext, hx], ?_⟩
  unfold Quantity.length?
  rw [htext, hread, Option.map_some]

theorem forall₂_length? {qs : List Quantity} (h : ∀ q ∈ qs, q.IsModest) :
    List.Forall₂ (fun (q : Quantity) (length : Length) =>
      length.unit = q.unit ∧ readFloat? q.numberText = some length.value)
      qs (qs.filterMap Quantity.length?) := by
  induction qs with
  | nil => exact .nil
  | cons q qs ih =>
    obtain ⟨hq, hqs⟩ := List.forall_mem_cons.mp h
    obtain ⟨x, hx, hlength⟩ := length?_of_isModest hq
    rw [List.filterMap_cons_some hlength]
    exact .cons ⟨rfl, hx⟩ (ih hqs)

namespace Css

/-! ## Values of quantities -/

/-- The value consists of quantities. Whitespace and comments may stand anywhere, and anything
behind an exclamation mark. -/
def IsMeasured (value : List Char) (qs : List Quantity) : Prop :=
  List.Forall₂ (fun c (q : Quantity) => ∃ source, c = .leaf ⟨q.token, source⟩)
    (significant (beforeBang (components value))) qs

theorem writeToken_quantity (q : Quantity) :
    writeToken q.token = .piece ([' '].intercalate (q.numberText :: q.unitText)) := by
  cases q <;> simp [writeToken, Quantity.token, Quantity.numberText, Quantity.unitText,
    List.intercalate]

theorem writeComponents_quantities {reference : List Component → Written} {cs : List Component}
    {qs : List Quantity}
    (h : List.Forall₂ (fun c (q : Quantity) => ∃ source, c = .leaf ⟨q.token, source⟩) cs qs) :
    writeComponents reference cs =
      ⟨qs.map fun q => [' '].intercalate (q.numberText :: q.unitText), none, []⟩ := by
  induction h with
  | nil => rfl
  | cons hc _ ih =>
    obtain ⟨source, rfl⟩ := hc
    rw [writeComponents, ih, writeComponent, writeToken_quantity]
    rfl

theorem intercalate_flatMap {α : Type} (f : α → List (List Char)) (h : ∀ a, f a ≠ [])
    (as : List α) :
    [' '].intercalate (as.map fun a => [' '].intercalate (f a)) =
      [' '].intercalate (as.flatMap f) := by
  induction as with
  | nil => rfl
  | cons a as ih =>
    cases as with
    | nil => simp [List.flatMap_cons]
    | cons b as =>
      have hne : (b :: as).flatMap f ≠ [] := by simp [h b]
      rw [List.flatMap_cons, intercalate_append (h a) hne, ← ih, List.map_cons,
        List.map_cons, List.intercalate_cons_cons]
      simp

theorem writeValue_quantities {value : List Char} {qs : List Quantity}
    (h : IsMeasured value qs) (custom : SortedMap String) :
    (writeValue custom value).text =
        [' '].intercalate (qs.flatMap fun q => q.numberText :: q.unitText) ∧
      (writeValue custom value).opacity = none := by
  obtain ⟨depth, hdepth⟩ := exists_depthBound custom value
  rw [writeValue, hdepth, writeText, ← writeComponents_significant, writeComponents_quantities h]
  exact ⟨intercalate_flatMap _ (fun _ => List.cons_ne_nil _ _) qs, rfl⟩

/-! ## Texts of quantities -/

theorem significant_space {c : Char} (h : isSpace c = true) (s : List Char) :
    significant (components (c :: s)) = significant (components (s.dropWhile isSpace)) := by
  rw [components_space h, significant_cons_of_isSeparator rfl]

theorem significant_dropWhile (s : List Char) :
    significant (components (s.dropWhile isSpace)) = significant (components s) := by
  cases s with
  | nil => rfl
  | cons c s =>
    by_cases hc : isSpace c = true
    · rw [significant_space hc, List.dropWhile_cons_of_pos hc]
    · rw [List.dropWhile_cons_of_neg hc]

theorem significant_blanks {blanks : List Char} (h : ∀ c ∈ blanks, isSpace c = true)
    (s : List Char) : significant (components (blanks ++ s)) = significant (components s) := by
  induction blanks with
  | nil => rfl
  | cons c blanks ih =>
    obtain ⟨hc, h⟩ := List.forall_mem_cons.mp h
    rw [List.cons_append, significant_space hc, significant_dropWhile, ih h]

/-- A quantity as it is written. -/
def quantitySource : Quantity → List Char
  | .number n => n.source
  | .percentage n => n.source ++ ['%']
  | .dimension n unit => n.source ++ unit.toList

theorem isNameStart_of_isLetter {c : Char} (h : isLetter c = true) :
    isNameStart c = true ∧ isDigit c = false ∧ c ∉ ['\x00', '\\', '.', '%', '+', '-'] := by
  refine forall_ascii (p := fun c => isLetter c = true → isNameStart c = true ∧
    isDigit c = false ∧ c ∉ ['\x00', '\\', '.', '%', '+', '-']) ?_ (toNat_lt_of_isLetter h) h
  decide

theorem isSpace_spec {c : Char} (h : isSpace c = true) :
    isNameChar c = false ∧ c ∉ ['\\', '.', 'e', 'E', '%', '+', '-'] := by
  have hspace : ∀ d ∈ [' ', '\t', '\n', '\r', '\x0c'], isNameChar d = false ∧
      d ∉ ['\\', '.', 'e', 'E', '%', '+', '-'] := forall_mem_of_all (by decide)
  refine hspace c ?_
  simp only [isSpace, isNewline, Bool.or_eq_true, decide_eq_true_eq] at h
  simp only [List.mem_cons, List.not_mem_nil, or_false]
  grind

theorem ends_of_space {rest : List Char} (h : ∀ c ∈ rest.head?, isSpace c = true) :
    EndsNumeral rest ∧ EndsName rest ∧ rest.head? ≠ some '%' ∧ startsName rest = false := by
  cases rest with
  | nil => exact ⟨endsNumeral_of_head (by simp), ⟨rfl, by simp⟩, by simp, rfl⟩
  | cons c rest =>
    obtain ⟨hname, hmarks⟩ := isSpace_spec (h c rfl)
    have hdigit : isDigit c = false := by
      simp only [isNameChar, Bool.or_eq_false_iff] at hname
      exact hname.1.2
    have hstart : isNameStart c = false := by
      simp only [isNameChar, Bool.or_eq_false_iff] at hname
      exact hname.1.1
    simp only [List.mem_cons, List.not_mem_nil, or_false, not_or] at hmarks
    refine ⟨endsNumeral_of_head ?_, ⟨by simpa using hname, by simp [hmarks]⟩, by simp [hmarks], ?_⟩
    · simp [hdigit, hmarks]
    · simp [startsName, hstart, hmarks]

theorem endsNumeral_letters {u rest : List Char} (hne : u ≠ [])
    (hu : ∀ c ∈ u, isLetter c = true) (hrest : ∀ c ∈ rest.head?, isSpace c = true) :
    EndsNumeral (u ++ rest) ∧ (u ++ rest).head? ≠ some '%' ∧ startsName (u ++ rest) = true := by
  obtain ⟨c, u, rfl⟩ := List.exists_cons_of_ne_nil hne
  obtain ⟨hstart, hdigit, hmarks⟩ := isNameStart_of_isLetter (hu c List.mem_cons_self)
  simp only [List.mem_cons, List.not_mem_nil, or_false, not_or] at hmarks
  refine ⟨⟨by simpa using hdigit, by simp [hmarks], scan_eq_none (.inr ?_)⟩, by simp [hmarks],
    by simp [startsName, hstart, hmarks]⟩
  intro d hd
  cases u with
  | nil =>
    obtain ⟨hname, hspace⟩ := isSpace_spec (hrest d hd)
    simp only [isNameChar, Bool.or_eq_false_iff] at hname
    exact ⟨hname.1.2, by rintro rfl; simp at hspace, by rintro rfl; simp at hspace⟩
  | cons e u =>
    obtain rfl := Option.mem_some_iff.mp hd
    obtain ⟨-, hnext, hsigns⟩ := isNameStart_of_isLetter (hu e (by simp))
    exact ⟨hnext, by rintro rfl; simp at hsigns, by rintro rfl; simp at hsigns⟩

theorem lexemes_quantity {q : Quantity} (hcss : q.numeral.IsCss) (h : q.IsLettered)
    {rest : List Char} (hrest : ∀ c ∈ rest.head?, isSpace c = true) :
    lexemes (quantitySource q ++ rest) = ⟨q.token, quantitySource q⟩ :: lexemes rest := by
  obtain ⟨hends, hname, hpercent, hstart⟩ := ends_of_space hrest
  cases q with
  | number n => exact lexemes_number hcss hends hpercent hstart
  | percentage n =>
    show lexemes (n.source ++ ['%'] ++ rest) = _
    rw [List.append_assoc]
    exact lexemes_percentage hcss rest
  | dimension n unit =>
    obtain ⟨hne, hletters⟩ := h
    have hplain : IsPlainName unit.toList := by
      intro c hc
      obtain ⟨hstart, -, hmarks⟩ := isNameStart_of_isLetter (hletters c hc)
      exact ⟨by simp [isNameChar, hstart], by rintro rfl; simp at hmarks⟩
    obtain ⟨hends, hpercent, hstart⟩ := endsNumeral_letters hne hletters hrest
    have htoken := lexemes_dimension hcss hplain hname hends hpercent hstart
    rw [String.ofList_toList] at htoken
    show lexemes (n.source ++ unit.toList ++ rest) = _
    rw [List.append_assoc]
    exact htoken

/-- Quantities with blanks between them, and maybe blanks around them. -/
inductive Spaced : List Char → List Quantity → Prop
  | blanks {s : List Char} : (∀ c ∈ s, isSpace c = true) → Spaced s []
  | quantity {s t : List Char} {q : Quantity} {qs : List Quantity} :
      (∀ c ∈ s, isSpace c = true) → q.numeral.IsCss → q.IsLettered →
      (∀ c ∈ t.head?, isSpace c = true) → Spaced t qs →
      Spaced (s ++ (quantitySource q ++ t)) (q :: qs)

theorem significant_spaced {text : List Char} {qs : List Quantity} (h : Spaced text qs) :
    significant (components text) = qs.map fun q => .leaf ⟨q.token, quantitySource q⟩ := by
  induction h with
  | blanks hs =>
    have hnil := significant_blanks hs []
    rw [List.append_nil] at hnil
    exact hnil
  | @quantity s t q qs hs hcss hlettered hrest _ ih =>
    have hlexemes := lexemes_quantity hcss hlettered hrest
    have hopens : q.token.opens? = none := by cases q <;> rfl
    have hsignificant : Component.isSeparator (.leaf ⟨q.token, quantitySource q⟩) = false := by
      cases q <;> rfl
    rw [significant_blanks hs, components_cons hlexemes hopens,
      significant_cons_of_not_isSeparator hsignificant, ih, List.map_cons]

theorem isMeasured_of_spaced {text : List Char} {qs : List Quantity} (h : Spaced text qs) :
    IsMeasured text qs := by
  have hsignificant := significant_spaced h
  have hbang : beforeBang (components text) = components text := by
    refine beforeBang_eq_self fun c hc => ?_
    cases hleaf : c.isLeaf (.delimiter '!') with
    | false => rfl
    | true =>
      have hmem : c ∈ significant (components text) :=
        List.mem_filter.mpr ⟨hc, by rw [isSeparator_of_isLeaf hleaf]; rfl⟩
      rw [hsignificant] at hmem
      obtain ⟨q, -, rfl⟩ := List.mem_map.mp hmem
      cases q <;> cases hleaf
  unfold IsMeasured
  rw [hbang, hsignificant, List.forall₂_map_left_iff]
  exact List.forall₂_same.mpr fun q _ => ⟨quantitySource q, rfl⟩

/-! ## Entries of a block -/

theorem get?_readBlock_last {body : List Component} {property : String} {value : List Char}
    {before after : List (String × List Char)}
    (hdeclared : (chunks body).filterMap Chunk.declaration? =
      before ++ (property, value) :: after)
    (hafter : ∀ d ∈ after, ∀ entry ∈ entriesOf d.1 (writeValue (customOf (chunks body)) d.2),
      entry.1 ≠ property)
    (htext : (writeValue (customOf (chunks body)) value).text ≠ [])
    (hopacity : (writeValue (customOf (chunks body)) value).opacity = none) :
    (readBlock body).1.declarations.get? property =
      some (String.ofList (writeValue (customOf (chunks body)) value).text) := by
  unfold readBlock writtenDeclarations
  simp only [hdeclared, List.map_append, List.map_cons, List.flatMap_append, List.flatMap_cons]
  generalize writeValue (customOf (chunks body)) value = w at htext hopacity ⊢
  have hnone : ((after.map fun d => (d.1, writeValue (customOf (chunks body)) d.2)).flatMap
      fun d => entriesOf d.1 d.2).filterMap
        (fun entry => if entry.1 = property then some entry.2 else none) = [] := by
    rw [List.filterMap_eq_nil_iff]
    intro entry hentry
    obtain ⟨d, hd, hentry⟩ := List.mem_flatMap.mp hentry
    obtain ⟨declaration, hmem, rfl⟩ := List.mem_map.mp hd
    exact if_neg (hafter declaration hmem entry hentry)
  have hentries : entriesOf property w = [(property, String.ofList w.text)] := by
    rw [entriesOf, if_neg htext, hopacity]
    rfl
  rw [get?_ofList, List.filterMap_append, List.filterMap_append, hnone, hentries,
    List.append_nil, List.getLast?_append]
  simp

/-- A value of quantities is stored as their numbers and units with one space between them, and
read as one length for each number that is finite. If the numbers are below `10 ^ 38`, these are
the lengths of all quantities. -/
theorem readSheet_quantities {text : List Char} {name property : String} {body : List Component}
    {value : List Char} {before after : List (String × List Char)} {qs : List Quantity}
    (hblock : blockOf text name = some body)
    (hdeclared : (chunks body).filterMap Chunk.declaration? =
      before ++ (property, value) :: after)
    (hafter : ∀ d ∈ after, ∀ entry ∈ entriesOf d.1 (writeValue (customOf (chunks body)) d.2),
      entry.1 ≠ property)
    (hvalue : IsMeasured value qs) (hne : qs ≠ []) (hlettered : ∀ q ∈ qs, q.IsLettered) :
    ∃ rule stored, (readSheet text).value.get? name = some rule ∧
      rule.declarations.get? property = some stored ∧
      stored.toList = [' '].intercalate (qs.flatMap fun q => q.numberText :: q.unitText) ∧
      Length.readAll stored.toList = qs.filterMap Quantity.length? ∧
      ((∀ q ∈ qs, q.IsModest) →
        List.Forall₂ (fun (q : Quantity) (length : Length) =>
          length.unit = q.unit ∧ readFloat? q.numberText = some length.value)
          qs (Length.readAll stored.toList)) := by
  obtain ⟨hwritten, hopacity⟩ := writeValue_quantities hvalue (customOf (chunks body))
  have htext : (writeValue (customOf (chunks body)) value).text ≠ [] := by
    obtain ⟨q, qs, rfl⟩ := List.exists_cons_of_ne_nil hne
    have hnumber := q.printed_numberText.ne_nil
    rw [hwritten, List.flatMap_cons, List.cons_append]
    cases q.unitText ++ qs.flatMap fun q => q.numberText :: q.unitText with
    | nil => simpa using hnumber
    | cons w ws => simp [List.intercalate_cons_cons, hnumber]
  refine ⟨_, _, ?_, get?_readBlock_last hdeclared hafter htext hopacity, ?_, ?_, ?_⟩
  · rw [get?_readSheet, hblock, Option.map_some]
  · rw [String.toList_ofList, hwritten]
  · rw [String.toList_ofList, hwritten, readAll_quantities hlettered]
  · intro hmodest
    rw [String.toList_ofList, hwritten, readAll_quantities hlettered]
    exact forall₂_length? hmodest

/-- `150.0%`, `-2Rem`, `007` and `4x` -/
def mixedQuantities : List Quantity :=
  [.percentage ⟨none, ['1', '5', '0'], some ['0'], none⟩,
    .dimension ⟨some .minus, ['2'], none, none⟩ "Rem", .number ⟨none, ['0', '0', '7'], none, none⟩,
    .dimension ⟨none, ['4'], none, none⟩ "x"]

theorem isCss_decimal (sign : Option Sign) {whole : List Char} {fraction : Option (List Char)}
    (hne : whole ≠ []) (hwhole : whole.all isDigit = true)
    (hfraction : fraction.all (fun digits => !digits.isEmpty && digits.all isDigit) = true) :
    Numeral.IsCss ⟨sign, whole, fraction, none⟩ := by
  refine ⟨List.all_eq_true.mp hwhole, ?_, by simp, .inl hne⟩
  rintro digits rfl
  simpa using hfraction

theorem spaced_of_all {s t : List Char} {q : Quantity} {qs : List Quantity}
    (hs : s.all isSpace = true) (hcss : q.numeral.IsCss) (hlettered : q.IsLettered)
    (ht : t.head?.all isSpace = true) (h : Spaced t qs) :
    Spaced (s ++ (quantitySource q ++ t)) (q :: qs) := by
  refine .quantity (List.all_eq_true.mp hs) hcss hlettered ?_ h
  intro c hc
  rw [Option.mem_def.mp hc] at ht
  exact ht

theorem spaced_mixedQuantities : Spaced " 150.0% -2Rem\n007\t4x".toList mixedQuantities := by
  have hlettered : ∀ q ∈ mixedQuantities, q.IsLettered := by
    simp [mixedQuantities, Quantity.IsLettered, isLetter]
  simp only [mixedQuantities, List.forall_mem_cons] at hlettered
  refine spaced_of_all (s := [' ']) (t := " -2Rem\n007\t4x".toList) rfl
    (isCss_decimal _ (by decide) rfl rfl) hlettered.1 rfl ?_
  refine spaced_of_all (s := [' ']) (t := "\n007\t4x".toList) rfl
    (isCss_decimal _ (by decide) rfl rfl) hlettered.2.1 rfl ?_
  refine spaced_of_all (s := ['\n']) (t := "\t4x".toList) rfl
    (isCss_decimal _ (by decide) rfl rfl) hlettered.2.2.1 rfl ?_
  exact spaced_of_all (s := ['\t']) (t := []) rfl (isCss_decimal _ (by decide) rfl rfl)
    hlettered.2.2.2.1 rfl (.blanks (by simp))

/-- The alpha of a width would be an opacity, but the width has none. -/
theorem readSheet_quantities_mixed :
    let text := ".a \x7b opacity: 150.0% -2Rem\n007\t4x; width: 2px\x7d".toList
    ∃ rule stored, (readSheet text).value.get? "a" = some rule ∧
      rule.declarations.get? "opacity" = some stored ∧
      List.Forall₂ (fun (q : Quantity) (length : Length) =>
        length.unit = q.unit ∧ readFloat? q.numberText = some length.value)
        mixedQuantities (Length.readAll stored.toList) := by
  intro text
  let body := components " opacity: 150.0% -2Rem\n007\t4x; width: 2px".toList
  have hblock : blockOf text "a" = some body := by decide +kernel
  have hdeclared : (chunks body).filterMap Chunk.declaration? =
      [] ++ ("opacity", " 150.0% -2Rem\n007\t4x".toList) :: [("width", " 2px".toList)] := by
    decide +kernel
  have hafter : ∀ d ∈ [("width", " 2px".toList)],
      ∀ entry ∈ entriesOf d.1 (writeValue (customOf (chunks body)) d.2),
        entry.1 ≠ "opacity" := by decide +kernel
  have hlettered : ∀ q ∈ mixedQuantities, q.IsLettered := by
    simp [mixedQuantities, Quantity.IsLettered, isLetter]
  obtain ⟨rule, stored, hrule, hstored, -, -, hlengths⟩ := readSheet_quantities hblock hdeclared
    hafter (isMeasured_of_spaced spaced_mixedQuantities) (by decide) hlettered
  exact ⟨rule, stored, hrule, hstored, hlengths (by decide +kernel)⟩

end Css

end ClassStyle
