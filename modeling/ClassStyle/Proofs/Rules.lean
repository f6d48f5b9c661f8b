import ClassStyle.Proofs.PlainNames
import ClassStyle.Proofs.Shorthands

/-!
# Rules of stylesheets

Whatever a text holds, its rules have a form that other parts can build on: each property is
declared once, under a lower-case name and with a value, and the names of custom properties start
with two dashes (`Css.wellFormed_readSheet`).
-/

namespace ClassStyle

open Text

/-! ## Well-formed rules -/

/-- A name in lower case that is no name of a custom property. -/
def IsOrdinary (name : String) : Prop :=
  (∀ c ∈ name.toList, c.isUpper = false) ∧ ¬['-', '-'] <+: name.toList

/-- What holds of a rule however its text is written. -/
structure Rule.WellFormed (rule : Rule) : Prop where
  distinct : rule.declarations.names.Nodup
  ordinary : ∀ name ∈ rule.declarations.names, IsOrdinary name
  valued : ∀ entry ∈ rule.declarations.entries, entry.2 ≠ ""
  dashed : ∀ entry ∈ rule.custom.entries, ['-', '-'] <+: entry.1.toList
  trimmed : ∀ entry ∈ rule.custom.entries,
    (∀ c ∈ entry.2.toList.head?, isBlank c = false) ∧
      ∀ c ∈ entry.2.toList.getLast?, isBlank c = false

/-! ## Trimmed texts -/

theorem not_isBlank_head?_dropWhile (s : List Char) :
    ∀ c ∈ (s.dropWhile isBlank).head?, isBlank c = false := by
  intro c hc
  have hnot := List.head?_dropWhile_not isBlank s
  rw [Option.mem_def.mp hc] at hnot
  exact hnot

theorem trimEnd_prefix (s : List Char) : trimEnd s <+: s := by
  have hsuffix := List.dropWhile_suffix isBlank (l := s.reverse)
  exact List.reverse_suffix.mp (by simpa [trimEnd] using hsuffix)

theorem not_isBlank_head?_trim (s : List Char) : ∀ c ∈ (trim s).head?, isBlank c = false := by
  intro c hc
  obtain ⟨after, hafter⟩ := trimEnd_prefix (trimStart s)
  refine not_isBlank_head?_dropWhile s c ?_
  show c ∈ (trimStart s).head?
  rw [← hafter, List.head?_append, ← trim, Option.mem_def.mp hc]
  rfl

theorem not_isBlank_getLast?_trim (s : List Char) :
    ∀ c ∈ (trim s).getLast?, isBlank c = false := by
  intro c hc
  refine not_isBlank_head?_dropWhile (trimStart s).reverse c ?_
  rwa [trim, trimEnd, List.getLast?_reverse] at hc

/-! ## Names -/

theorem lowerChar_spec (c : Char) :
    (lowerChar c).isUpper = false ∧ (lowerChar c = '-' ↔ c = '-') := by
  by_cases hc : c.toNat < 128
  · refine forall_ascii
      (p := fun c => (lowerChar c).isUpper = false ∧ (lowerChar c = '-' ↔ c = '-')) ?_ hc
    decide
  · have hsame : lowerChar c = c :=
      (lowerChar_cases c).resolve_right fun hletter => hc (toNat_lt_of_isLetter hletter)
    rw [hsame]
    refine ⟨?_, Iff.rfl⟩
    have hval : ¬c.val ≤ 90 := fun h => hc (Nat.lt_of_le_of_lt h (by decide))
    simp [Char.isUpper, hval]

namespace Css

theorem isCustom_iff (name : String) : isCustom name = true ↔ ['-', '-'] <+: name.toList := by
  unfold isCustom
  split
  · next rest heq => simp [heq]
  · next hne =>
    simp only [Bool.false_eq_true, false_iff]
    rintro ⟨rest, hrest⟩
    exact hne rest hrest.symm

theorem isCustom_lowerString (name : String) :
    isCustom (lowerString name) = true ↔ isCustom name = true := by
  rw [isCustom_iff, isCustom_iff, lowerString, String.toList_ofList, lower]
  cases name.toList with
  | nil => simp
  | cons c rest =>
    cases rest with
    | nil => simp
    | cons d rest =>
      simp only [List.map_cons, List.cons_prefix_cons, List.nil_prefix, eq_comm (a := '-'),
        (lowerChar_spec c).2, (lowerChar_spec d).2]

/-! ## Entries -/

theorem mem_entriesOf {property : String} {written : Written} (h : written.WellFormed)
    {entry : String × String} (hentry : entry ∈ entriesOf property written) :
    (entry.1 = property ∨
      entry.1 ∈ ["background-opacity", "border-opacity", "text-opacity", "opacity"]) ∧
      entry.2 ≠ "" := by
  unfold entriesOf at hentry
  split at hentry
  · cases hentry
  · next htext =>
    rcases List.mem_cons.mp hentry with rfl | hopacity
    · exact ⟨.inl rfl, by simpa using htext⟩
    · obtain ⟨alpha, halpha, rfl⟩ := Option.map_eq_some_iff.mp (Option.mem_toList.mp hopacity)
      obtain ⟨x, rfl⟩ := h.opacity alpha halpha
      exact ⟨.inr (opacityProperty_mem property), by simpa using (printed_writeSingle x).ne_nil⟩

theorem mem_customOf {chunks : List Chunk} {entry : String × String}
    (h : entry ∈ (customOf chunks).entries) :
    isCustom entry.1 = true ∧ ∃ value, entry.2 = String.ofList (trim value) := by
  obtain ⟨chunk, -, hcustom⟩ := List.mem_filterMap.mp (SortedMap.mem_ofList h)
  cases chunk with
  | declared name value =>
    simp only [Chunk.custom?] at hcustom
    split at hcustom
    · next hname =>
      obtain rfl := Option.some.inj hcustom
      exact ⟨hname, value, rfl⟩
    · cases hcustom
  | nameless => cases hcustom
  | colonless => cases hcustom

theorem isOrdinary_lowerString {name : String} (h : isCustom name = false) :
    IsOrdinary (lowerString name) := by
  constructor
  · simp only [lowerString, lower, String.toList_ofList, List.mem_map]
    rintro _ ⟨c, -, rfl⟩
    exact (lowerChar_spec c).1
  · rw [← isCustom_iff, isCustom_lowerString, h]
    exact Bool.false_ne_true

theorem isOrdinary_opacity {name : String}
    (h : name ∈ ["background-opacity", "border-opacity", "text-opacity", "opacity"]) :
    IsOrdinary name := by
  have hnames : ∀ name ∈ ["background-opacity", "border-opacity", "text-opacity", "opacity"],
      isCustom name = false ∧ lowerString name = name := by decide
  obtain ⟨hcustom, hlower⟩ := hnames name h
  rw [← hlower]
  exact isOrdinary_lowerString hcustom

theorem isOrdinary_declaration {chunk : Chunk} {declaration : String × List Char}
    (h : chunk.declaration? = some declaration) : IsOrdinary declaration.1 := by
  cases chunk with
  | declared name value =>
    simp only [Chunk.declaration?] at h
    split at h
    · cases h
    · next hname =>
      obtain rfl := Option.some.inj h
      exact isOrdinary_lowerString (Bool.eq_false_iff.mpr hname)
  | nameless => cases h
  | colonless => cases h

theorem mem_readBlock {body : List Component} {entry : String × String}
    (h : entry ∈ (readBlock body).1.declarations.entries) :
    IsOrdinary entry.1 ∧ entry.2 ≠ "" := by
  obtain ⟨written, hwritten, hmem⟩ := List.mem_flatMap.mp (ArrivalMap.mem_ofList h)
  obtain ⟨declaration, hdeclaration, rfl⟩ := List.mem_map.mp hwritten
  obtain ⟨chunk, -, hchunk⟩ := List.mem_filterMap.mp hdeclaration
  obtain ⟨hname, hvalue⟩ := mem_entriesOf (wellFormed_writeValue _ _) hmem
  refine ⟨?_, hvalue⟩
  rcases hname with hname | hname
  · rw [hname]
    exact isOrdinary_declaration hchunk
  · exact isOrdinary_opacity hname

theorem wellFormed_readBlock (body : List Component) : (readBlock body).1.WellFormed where
  distinct := ArrivalMap.nodup_names_ofList _
  ordinary := fun name hname => by
    obtain ⟨entry, hentry, rfl⟩ := List.mem_map.mp hname
    exact (mem_readBlock hentry).1
  valued := fun _ hentry => (mem_readBlock hentry).2
  dashed := fun _ hentry => (isCustom_iff _).mp (mem_customOf hentry).1
  trimmed := fun entry hentry => by
    obtain ⟨-, value, hvalue⟩ := mem_customOf hentry
    rw [hvalue, String.toList_ofList]
    exact ⟨not_isBlank_head?_trim value, not_isBlank_getLast?_trim value⟩

/-! ## Sheets -/

/-- Every rule that is read is well-formed, however malformed the text is. -/
theorem wellFormed_readSheet {text : List Char} {className : String} {rule : Rule}
    (h : (readSheet text).value.get? className = some rule) : rule.WellFormed := by
  rw [get?_readSheet] at h
  obtain ⟨body, -, rfl⟩ := Option.map_eq_some_iff.mp h
  exact wellFormed_readBlock body

/-- Beside malformed chunks: blanks around the value of a custom property, capital letters, a
value that cannot be written, and a property that is declared after a color gave it. -/
theorem wellFormed_readSheet_malformed :
    let text := ".a \x7b --Ink:  rgba(1, 2, 3, 0.5) ; COLOR: var(--Ink); top: !; " ++
      "color: var(--none); \x7b \x7d 7; Text-Opacity: 1 \x7d"
    let rule : Rule := ⟨.ofList [("--Ink", "rgba(1, 2, 3, 0.5)")],
      ⟨[("color", "1,2,3"), ("text-opacity", "1")]⟩⟩
    (readSheet text.toList).value.get? "a" = some rule ∧ rule.WellFormed := by
  intro text rule
  have hread : (readSheet text.toList).value.get? "a" = some rule := by decide +kernel
  exact ⟨hread, wellFormed_readSheet hread⟩

end Css

end ClassStyle
