import ClassStyle.Proofs.FontSizes
import ClassStyle.Proofs.Quantities

/-!
# Units glued and apart

A unit stands right behind its numeral, or as a word of its own. A list of numerals with units is
read as the same lengths whichever way each of its units is written (`readAll_itemized`).
-/

namespace ClassStyle

open Text

/-! ## Words at the front of a text -/

theorem words_append {w t : List Char} (hne : w ≠ []) (hw : ∀ c ∈ w, isBlank c = false)
    (ht : ∀ c ∈ t.head?, isBlank c = true) : words (w ++ t) = w :: words t := by
  cases t with
  | nil =>
    rw [List.append_nil]
    exact pieces_of_no_cut hne hw
  | cons c t =>
    have hc : isBlank c = true := ht c rfl
    rw [words, pieces_append_cut hne hw hc, words, pieces_of_cut_cons hc]

theorem head?_append {p : Char → Prop} {s t : List Char} (hs : ∀ c ∈ s, p c)
    (ht : ∀ c ∈ t.head?, p c) : ∀ c ∈ (s ++ t).head?, p c := by
  cases s with
  | nil => exact ht
  | cons d s =>
    rintro c hc
    obtain rfl := Option.mem_some_iff.mp hc
    exact hs d List.mem_cons_self

/-! ## Units -/

/-- The name of a unit: letters of ASCII, a percent sign, or nothing at all. -/
def IsUnitName (unit : List Char) : Prop := unit = ['%'] ∨ ∀ c ∈ unit, isLetter c = true

namespace IsUnitName

variable {unit : List Char}

theorem no_blank (h : IsUnitName unit) : ∀ c ∈ unit, isBlank c = false := by
  rcases h with rfl | h
  · exact Css.forall_mem_of_all rfl
  · intro c hc
    exact forall_ascii (p := fun c => isLetter c = true → isBlank c = false) (by decide)
      (toNat_lt_of_isLetter (h c hc)) (h c hc)

theorem splitNumeral (h : IsUnitName unit) (hne : unit ≠ []) :
    Length.splitNumeral unit = ([], unit) := by
  rcases h with rfl | h
  · exact splitNumeral_of_head rfl (by decide)
  · obtain ⟨c, unit, rfl⟩ := List.exists_cons_of_ne_nil hne
    obtain ⟨-, hdigit, hmarks⟩ := Css.isNameStart_of_isLetter (h c List.mem_cons_self)
    simp only [List.mem_cons, List.not_mem_nil, or_false, not_or] at hmarks
    exact splitNumeral_of_head hdigit ⟨hmarks.2.2.2.2.1, hmarks.2.2.2.2.2, hmarks.2.2.1⟩

/-- A unit ends the numeral in front of it, also one that starts like an exponent. -/
theorem endsNumeral (h : IsUnitName unit) : EndsNumeral unit := by
  rcases h with rfl | h
  · exact endsNumeral_of_head (by simp [isDigit])
  · by_cases hne : unit = []
    · exact endsNumeral_of_head (by simp [hne])
    · have hends : ∀ c ∈ ([] : List Char).head?, Css.isSpace c = true := by simp
      have hletters := Css.endsNumeral_letters hne h hends
      rw [List.append_nil] at hletters
      exact hletters.1

end IsUnitName

/-! ## Items -/

/-- A list of numerals with their units. Blanks stand between two items, and they may stand in
front of the first, behind the last, and between a numeral and its unit. -/
inductive Itemized : List Char → List (Numeral × List Char) → Prop
  | blanks {s : List Char} : (∀ c ∈ s, isBlank c = true) → Itemized s []
  | item {s gap unit t : List Char} {n : Numeral} {items : List (Numeral × List Char)} :
      (∀ c ∈ s, isBlank c = true) → n.IsDecimal → (∀ c ∈ gap, isBlank c = true) →
      IsUnitName unit → (∀ c ∈ t.head?, isBlank c = true) → Itemized t items →
      Itemized (s ++ (n.source ++ (gap ++ (unit ++ t)))) ((n, unit) :: items)

def itemLength (item : Numeral × List Char) : Length :=
  ⟨(Decimal.ofNumeral item.1).toFloat, .ofName item.2⟩

section

variable {n : Numeral} {gap unit t : List Char}

theorem word_decimal (h : n.IsDecimal) (hunit : IsUnitName unit) (r : Length.Reading) :
    r.word (n.source ++ unit) = ⟨r.lengths ++ [itemLength (n, unit)], unit.isEmpty⟩ := by
  have hscan : Numeral.scan true (n.source ++ unit) = some (n, unit) :=
    Numeral.scan_decimal_append h hunit.endsNumeral fun _ _ => .inr rfl
  have hwhole : Numeral.scan true n.source = some (n, []) := by
    have hends : EndsNumeral [] := endsNumeral_of_head (by simp)
    simpa using Numeral.scan_decimal_append h hends fun _ _ => .inr rfl
  have hread : readFloat? n.source = some (Decimal.ofNumeral n).toFloat := by
    rw [readFloat?, Decimal.ofText?_source hwhole, Option.map_some]
  simp only [Length.Reading.word, Length.splitNumeral, hscan, h.source_ne_nil, if_false, hread,
    itemLength]

theorem foldl_item (h : n.IsDecimal) (hgap : ∀ c ∈ gap, isBlank c = true)
    (hunit : IsUnitName unit) (ht : ∀ c ∈ t.head?, isBlank c = true) (r : Length.Reading) :
    ∃ awaits, (words (n.source ++ (gap ++ (unit ++ t)))).foldl Length.Reading.word r =
      (words t).foldl Length.Reading.word ⟨r.lengths ++ [itemLength (n, unit)], awaits⟩ := by
  have hnone : IsUnitName [] := .inr (by simp)
  have hbare := word_decimal h hnone r
  rw [List.append_nil] at hbare
  by_cases hempty : unit = []
  · subst hempty
    refine ⟨true, ?_⟩
    rw [List.nil_append, words_append h.source_ne_nil h.no_blank (head?_append hgap ht),
      List.foldl_cons, hbare, words, pieces_of_cut_append hgap, words, List.isEmpty_nil]
  · cases gap with
    | nil =>
      have hne : n.source ++ unit ≠ [] := by simp [hempty]
      have hblank : ∀ c ∈ n.source ++ unit, isBlank c = false :=
        List.forall_mem_append.mpr ⟨h.no_blank, hunit.no_blank⟩
      refine ⟨unit.isEmpty, ?_⟩
      rw [List.nil_append, ← List.append_assoc, words_append hne hblank ht, List.foldl_cons,
        word_decimal h hunit]
    | cons c gap =>
      have hbehind : ∀ d ∈ (c :: gap ++ (unit ++ t)).head?, isBlank d = true := by
        rintro d hd
        obtain rfl := Option.mem_some_iff.mp hd
        exact hgap c List.mem_cons_self
      refine ⟨false, ?_⟩
      rw [words_append h.source_ne_nil h.no_blank hbehind, words, pieces_of_cut_append hgap,
        ← words, words_append hempty hunit.no_blank ht, List.foldl_cons, List.foldl_cons, hbare,
        word_unit (hunit.splitNumeral hempty), List.isEmpty_nil, if_pos rfl, setLastUnit_concat]
      rfl

end

theorem foldl_itemized {text : List Char} {items : List (Numeral × List Char)}
    (h : Itemized text items) (r : Length.Reading) :
    ((words text).foldl Length.Reading.word r).lengths = r.lengths ++ items.map itemLength := by
  induction h generalizing r with
  | blanks hs => rw [words, pieces_of_cut hs, List.foldl_nil, List.map_nil, List.append_nil]
  | item hs hdecimal hgap hunit ht _ ih =>
    obtain ⟨awaits, hfold⟩ := foldl_item hdecimal hgap hunit ht r
    rw [words, pieces_of_cut_append hs, ← words, hfold, ih, List.map_cons, List.append_assoc,
      List.singleton_append]

/-- A list of numerals with units is read as their lengths in order, whether a unit is glued to its
numeral or stands behind blanks. -/
theorem readAll_itemized {text : List Char} {items : List (Numeral × List Char)}
    (h : Itemized text items) :
    Length.readAll text = items.map fun item =>
      ⟨(Decimal.ofNumeral item.1).toFloat, LengthUnit.ofName item.2⟩ :=
  foldl_itemized h ⟨[], false⟩

/-- `1e2e`, `3.` with a percent sign, `-.5` and `+7E-1` with `Rem` -/
def mixedItems : List (Numeral × List Char) :=
  [(⟨none, ['1'], none, some ⟨'e', none, ['2']⟩⟩, ['e']), (⟨none, ['3'], some [], none⟩, ['%']),
    (⟨some .minus, [], some ['5'], none⟩, []),
    (⟨some .plus, ['7'], none, some ⟨'E', some .minus, ['1']⟩⟩, ['R', 'e', 'm'])]

/-- The items in one line, with a line separator and a wide space in front of two of the units. -/
def mixedText : List Char := "\t1e2e 3.\u2028% -.5\u00a0+7E-1\u3000Rem".toList

theorem itemized_of_all (s gap unit : List Char) {text t : List Char} {n : Numeral}
    {items : List (Numeral × List Char)} (h : Itemized t items) (hdecimal : n.IsDecimal)
    (htext : text = s ++ (n.source ++ (gap ++ (unit ++ t))))
    (hblank : ((s ++ gap).all isBlank && t.head?.all isBlank) = true)
    (hunit : (unit == ['%'] || unit.all isLetter) = true) : Itemized text ((n, unit) :: items) := by
  rw [Bool.and_eq_true] at hblank
  obtain ⟨hs, hgap⟩ := List.forall_mem_append.mp (List.all_eq_true.mp hblank.1)
  have hname : IsUnitName unit := by
    rw [Bool.or_eq_true, beq_iff_eq, List.all_eq_true] at hunit
    exact hunit
  rw [htext]
  refine .item hs hdecimal hgap hname (fun c hc => ?_) h
  have hhead := hblank.2
  rw [Option.mem_def.mp hc] at hhead
  exact hhead

theorem itemized_mixed : Itemized mixedText mixedItems := by
  have hdecimal : ∀ item ∈ mixedItems, item.1.IsDecimal := by
    have hscan : ∀ item ∈ mixedItems, Numeral.scan true item.1.source = some (item.1, []) := by
      decide
    exact fun item hitem => Numeral.isDecimal_of_scan (hscan item hitem)
  simp only [mixedItems, List.forall_mem_cons] at hdecimal
  obtain ⟨hglued, hdot, hbare, hspaced, -⟩ := hdecimal
  have hend : Itemized [] [] := .blanks (by simp)
  have hlast : Itemized "\u00a0+7E-1\u3000Rem".toList (mixedItems.drop 3) :=
    itemized_of_all ['\u00a0'] ['\u3000'] ['R', 'e', 'm'] hend hspaced (by decide +kernel)
      (by decide +kernel) rfl
  have hthird : Itemized " -.5\u00a0+7E-1\u3000Rem".toList (mixedItems.drop 2) :=
    itemized_of_all [' '] [] [] hlast hbare (by decide +kernel) (by decide +kernel) rfl
  have hsecond : Itemized " 3.\u2028% -.5\u00a0+7E-1\u3000Rem".toList (mixedItems.drop 1) :=
    itemized_of_all [' '] ['\u2028'] ['%'] hthird hdot (by decide +kernel) (by decide +kernel) rfl
  exact itemized_of_all ['\t'] [] ['e'] hsecond hglued (by decide +kernel) (by decide +kernel) rfl

theorem readAll_itemized_mixed :
    Itemized mixedText mixedItems ∧
      Length.readAll mixedText = [⟨100, .px⟩, ⟨3, .percent⟩, ⟨-0.5, .px⟩, ⟨0.7, .rem⟩] := by
  refine ⟨itemized_mixed, ?_⟩
  rw [readAll_itemized itemized_mixed]
  decide +kernel

end ClassStyle
