import ClassStyle.Proofs.Fields
import ClassStyle.Proofs.Printed
import Mathlib

/-!
# Numbers and texts of values

The numbers that the values and the parts of a style hold. An edit brings in no numbers but its own
(`forall_numbers_edit`), and a value whose numbers are finite is written without the words for what
is not finite (`AttributeValue.IsFinite`).
-/

namespace ClassStyle

open Text

/-! ## Numbers -/

def UDim.numbers (u : UDim) : List Float := [u.scale, u.offset]

def SizeBound.numbers : SizeBound → List Float
  | px value => [value]
  | viewport _ fraction => [fraction]
  | unbounded => []

/-- The numbers that a value holds. -/
def AttributeValue.numbers : AttributeValue → List Float
  | number value => [value]
  | udim value => value.numbers
  | udim2 value => value.x.numbers ++ value.y.numbers
  | vector2 value => [value.x, value.y]
  | bounds x y => x.numbers ++ y.numbers
  | _ => []

def StyleEdit.numbers : StyleEdit → List Float
  | padding values => values.flatMap UDim.numbers
  | paddingSide _ value => value.numbers
  | borderWidth x => [x]
  | borderTransparency x => [x]
  | gap value => value.numbers
  | anchor x y => [x, y]
  | anchorX x => [x]
  | anchorY y => [y]
  | left value => value.numbers
  | top value => value.numbers
  | width value => value.numbers
  | height value => value.numbers
  | minWidth bound => bound.numbers
  | minHeight bound => bound.numbers
  | maxWidth bound => bound.numbers
  | maxHeight bound => bound.numbers
  | _ => []

def Padding.numbers (p : Padding) : List Float :=
  p.left.numbers ++ p.right.numbers ++ p.top.numbers ++ p.bottom.numbers

def Size.numbers (s : Size) : List Float :=
  s.minWidth.numbers ++ s.minHeight.numbers ++ s.maxWidth.numbers ++ s.maxHeight.numbers ++
    s.width.numbers ++ s.height.numbers

def Position.numbers (p : Position) : List Float := p.left.numbers ++ p.top.numbers

/-- The numbers that a style holds. -/
def Style.numbers (s : Style) : List Float :=
  s.padding.numbers ++ s.flex.gap.numbers ++ [s.anchor.x, s.anchor.y] ++
    [s.border.width, s.border.transparency] ++ s.size.numbers ++ s.position.numbers

section

variable {q : Float → Prop} {e : StyleEdit}

theorem forall_numbers_padding {p : Padding} (h : ∀ x ∈ p.numbers, q x)
    (he : ∀ x ∈ e.numbers, q x) : ∀ x ∈ (p.edit e).numbers, q x := by
  cases e with
  | padding values =>
    simp only [Padding.edit, Padding.numbers, List.forall_mem_append, StyleEdit.numbers,
      List.forall_mem_flatMap] at h he ⊢
    unfold Padding.setAll
    split <;> simp_all
  | paddingSide side value =>
    simp only [Padding.numbers, List.forall_mem_append, StyleEdit.numbers] at h he ⊢
    cases side <;> simp only [Padding.edit, Padding.set] <;> tauto
  | _ => exact h

theorem forall_numbers_gap {f : Flex} (h : ∀ x ∈ f.gap.numbers, q x)
    (he : ∀ x ∈ e.numbers, q x) : ∀ x ∈ (f.edit e).gap.numbers, q x := by
  cases e with
  | gap gap => exact he
  | mainPlacement placement => simpa only [Flex.edit, align_eq] using h
  | crossPlacement placement => simpa only [Flex.edit, align_eq] using h
  | mainDistribution alignment => simpa only [Flex.edit, distribute_eq] using h
  | crossDistribution alignment => simpa only [Flex.edit, distribute_eq] using h
  | _ => exact h

theorem forall_numbers_anchor {v : Vector2} (h : ∀ x ∈ [v.x, v.y], q x)
    (he : ∀ x ∈ e.numbers, q x) :
    ∀ x ∈ [(v.editAnchor e).x, (v.editAnchor e).y], q x := by
  cases e with
  | anchor x y => exact he
  | anchorX x =>
    exact List.forall_mem_cons.mpr ⟨he x List.mem_cons_self, (List.forall_mem_cons.mp h).2⟩
  | anchorY y => exact List.forall_mem_cons.mpr ⟨(List.forall_mem_cons.mp h).1, he⟩
  | _ => exact h

theorem forall_numbers_border {b : Border} (h : ∀ x ∈ [b.width, b.transparency], q x)
    (he : ∀ x ∈ e.numbers, q x) : ∀ x ∈ [(b.edit e).width, (b.edit e).transparency], q x := by
  cases e with
  | borderWidth x =>
    exact List.forall_mem_cons.mpr ⟨he x List.mem_cons_self, (List.forall_mem_cons.mp h).2⟩
  | borderTransparency x => exact List.forall_mem_cons.mpr ⟨(List.forall_mem_cons.mp h).1, he⟩
  | _ => exact h

theorem forall_numbers_size {s : Size} (h : ∀ x ∈ s.numbers, q x)
    (he : ∀ x ∈ e.numbers, q x) : ∀ x ∈ (s.edit e).numbers, q x := by
  simp only [Size.numbers, List.forall_mem_append] at h ⊢
  cases e <;> simp only [Size.edit, StyleEdit.numbers] at he ⊢ <;> tauto

theorem forall_numbers_position {p : Position} (h : ∀ x ∈ p.numbers, q x)
    (he : ∀ x ∈ e.numbers, q x) : ∀ x ∈ (p.edit e).numbers, q x := by
  simp only [Position.numbers, List.forall_mem_append] at h ⊢
  cases e <;> simp only [Position.edit, StyleEdit.numbers] at he ⊢ <;> tauto

theorem forall_numbers_edit {s : Style} (h : ∀ x ∈ s.numbers, q x)
    (he : ∀ x ∈ e.numbers, q x) : ∀ x ∈ (s.edit e).numbers, q x := by
  simp only [Style.numbers, List.forall_mem_append] at h ⊢
  obtain ⟨⟨⟨⟨⟨hpadding, hgap⟩, hanchor⟩, hborder⟩, hsize⟩, hposition⟩ := h
  exact ⟨⟨⟨⟨⟨forall_numbers_padding hpadding he, forall_numbers_gap hgap he⟩,
    forall_numbers_anchor hanchor he⟩, forall_numbers_border hborder he⟩,
    forall_numbers_size hsize he⟩, forall_numbers_position hposition he⟩

end

/-! ## Texts -/

/-- What is not finite is written with one of these words. -/
def nonFiniteWords : List (List Char) := ["inf".toList, "NaN".toList]

/-- No word for what is not finite stands in the text. -/
def IsClean (text : List Char) : Prop := ∀ word ∈ nonFiniteWords, ¬word <:+: text

instance (text : List Char) : Decidable (IsClean text) :=
  inferInstanceAs (Decidable (∀ word ∈ nonFiniteWords, ¬word <:+: text))

theorem isClean_nil : IsClean [] := by decide

theorem infix_append_cons {word s t : List Char} {c : Char} (hc : c ∉ word)
    (h : word <:+: s ++ c :: t) : word <:+: s ∨ word <:+: t := by
  have hfront : ∀ {u : List Char}, u ≠ [] → u <+: c :: t → c ∈ u := by
    intro u hu hprefix
    cases u with
    | nil => exact absurd rfl hu
    | cons d u =>
      rw [(List.cons_prefix_cons.mp hprefix).1]
      exact List.mem_cons_self
  rcases List.infix_append_iff_ne_nil.mp h with h | h | ⟨u, v, -, hv, hword, -, hprefix⟩
  · exact .inl h
  · rcases List.infix_cons_iff.mp h with h | h
    · by_cases hword : word = []
      · exact .inl (hword ▸ List.nil_infix)
      · exact absurd (hfront hword h) hc
    · exact .inr h
  · exact absurd (hword ▸ List.mem_append_right _ (hfront hv hprefix)) hc

theorem IsClean.join {s t : List Char} {c : Char} (hs : IsClean s) (ht : IsClean t)
    (hc : ∀ word ∈ nonFiniteWords, c ∉ word := by decide) : IsClean (s ++ c :: t) := by
  intro word hword h
  rcases infix_append_cons (hc word hword) h with h | h
  · exact hs word hword h
  · exact ht word hword h

/-- None of the letters stands in the text. -/
def lacks (letters text : List Char) : Bool := text.all fun c => c ∉ letters

theorem lacks_append (letters s t : List Char) :
    lacks letters (s ++ t) = (lacks letters s && lacks letters t) := List.all_append

theorem isClean_of_lacks {c : Char} (hc : c ∈ "inf".toList) {text : List Char}
    (h : lacks [c, 'N'] text = true) : IsClean text := by
  have hletters : ∀ d ∈ text, d ≠ c ∧ d ≠ 'N' := by simpa [lacks] using h
  refine List.forall_mem_cons.mpr ⟨fun hinf => ?_, List.forall_mem_singleton.mpr fun hnan => ?_⟩
  · exact (hletters c (hinf.subset hc)).1 rfl
  · exact (hletters 'N' (hnan.subset (by decide))).2 rfl

theorem lacks_floatText {x : Float} (h : x.isFinite = true) :
    lacks ['f', 'N'] (floatText x).toList = true := by
  obtain ⟨n, hn, htext⟩ := exists_isPlain_writeNumber .binary64 (x := x.toModel.unpack) h
  unfold floatText writeFloat
  rw [String.toList_ofList, htext]
  refine List.all_eq_true.mpr fun c hc => ?_
  have hletter : c ≠ 'f' ∧ c ≠ 'N' := by
    constructor <;> rintro rfl <;> exact absurd (hn.mem_source hc) (by decide)
  simpa using hletter

theorem lacks_pair (front : String) {a b : String} (hfront : lacks ['f', 'N'] front.toList = true)
    (ha : lacks ['f', 'N'] a.toList = true) (hb : lacks ['f', 'N'] b.toList = true) :
    lacks ['f', 'N'] (front ++ a ++ ", " ++ b ++ ")").toList = true := by
  simp only [String.toList_append, lacks_append]
  rw [hfront, ha, hb]
  decide

theorem lacks_udim {u : UDim} (h : ∀ x ∈ u.numbers, x.isFinite = true) :
    lacks ['f', 'N'] u.text.toList = true := by
  have hscale := lacks_floatText (h u.scale (by simp [UDim.numbers]))
  have hoffset := lacks_floatText (h u.offset (by simp [UDim.numbers]))
  exact lacks_pair "new UDim(" (by decide) hscale hoffset

theorem lacks_bound {bound : SizeBound} (h : ∀ x ∈ bound.numbers, x.isFinite = true) :
    lacks ['f', 'N'] bound.text.toList = true := by
  cases bound with
  | px value => exact lacks_floatText (h value (by simp [SizeBound.numbers]))
  | viewport axis fraction =>
    have hfraction := lacks_floatText (h fraction (by simp [SizeBound.numbers]))
    have hviewport : ∀ front text : String, lacks ['f', 'N'] front.toList = true →
        lacks ['f', 'N'] text.toList = true →
        lacks ['f', 'N'] (front ++ axis.text ++ " * " ++ text).toList = true := by
      intro front text hfront htext
      simp only [String.toList_append, lacks_append]
      rw [hfront, htext]
      cases axis <;> decide
    exact hviewport "workspace.CurrentCamera.ViewportSize." _ (by cbv) hfraction
  | unbounded =>
    show lacks _ "math.huge".toList = true
    cbv

theorem isClean_color (color : Color) : IsClean color.text.toList := by
  have hnumber : ∀ n : Nat, lacks ['i', 'N'] (toString n).toList = true := by
    intro n
    refine List.all_eq_true.mpr fun c hc => ?_
    rw [Nat.toString_eq_ofList_toDigits, String.toList_ofList] at hc
    have hdigit := isDigit_of_mem_toDigits hc
    have hletter : c ≠ 'i' ∧ c ≠ 'N' := by
      constructor <;> rintro rfl <;> exact absurd hdigit (by decide)
    simpa using hletter
  have hchannels : ∀ r g b : String, lacks ['i', 'N'] r.toList = true →
      lacks ['i', 'N'] g.toList = true → lacks ['i', 'N'] b.toList = true →
      lacks ['i', 'N'] ("Color3.fromRGB(" ++ r ++ ", " ++ g ++ ", " ++ b ++ ")").toList = true := by
    intro r g b hr hg hb
    simp only [String.toList_append, lacks_append]
    rw [hr, hg, hb]
    cbv
  -- There is an `f` in front of the channels, but no `i`.
  exact isClean_of_lacks (c := 'i') (by decide)
    (hchannels _ _ _ (hnumber _) (hnumber _) (hnumber _))

/-! ## Values -/

/-- All numbers of the value are finite, and it is written so. -/
structure AttributeValue.IsFinite (value : AttributeValue) : Prop where
  numbers : ∀ x ∈ value.numbers, x.isFinite = true
  text : IsClean value.text.toList

theorem isFinite_of_lacks {value : AttributeValue} (h : ∀ x ∈ value.numbers, x.isFinite = true)
    (htext : lacks ['f', 'N'] value.text.toList = true) : value.IsFinite :=
  ⟨h, isClean_of_lacks (by decide) htext⟩

theorem isFinite_number {x : Float} (h : x.isFinite = true) :
    (AttributeValue.number x).IsFinite :=
  isFinite_of_lacks (by simpa [AttributeValue.numbers] using h) (lacks_floatText h)

theorem isFinite_udim {u : UDim} (h : ∀ x ∈ u.numbers, x.isFinite = true) :
    (AttributeValue.udim u).IsFinite := isFinite_of_lacks h (lacks_udim h)

theorem isFinite_udim2 {x y : UDim} (hx : ∀ z ∈ x.numbers, z.isFinite = true)
    (hy : ∀ z ∈ y.numbers, z.isFinite = true) : (AttributeValue.udim2 ⟨x, y⟩).IsFinite :=
  isFinite_of_lacks (List.forall_mem_append.mpr ⟨hx, hy⟩)
    (lacks_pair "new UDim2(" (by decide) (lacks_udim hx) (lacks_udim hy))

theorem isFinite_vector2 {v : Vector2} (h : ∀ z ∈ [v.x, v.y], z.isFinite = true) :
    (AttributeValue.vector2 v).IsFinite := by
  have hx := lacks_floatText (h v.x (by simp))
  have hy := lacks_floatText (h v.y (by simp))
  exact isFinite_of_lacks h (lacks_pair "new Vector2(" (by decide) hx hy)

theorem isFinite_bounds {x y : SizeBound} (hx : ∀ z ∈ x.numbers, z.isFinite = true)
    (hy : ∀ z ∈ y.numbers, z.isFinite = true) : (AttributeValue.bounds x y).IsFinite :=
  isFinite_of_lacks (List.forall_mem_append.mpr ⟨hx, hy⟩)
    (lacks_pair "new Vector2(" (by decide) (lacks_bound hx) (lacks_bound hy))

theorem isFinite_color (color : Color) : (AttributeValue.color color).IsFinite :=
  ⟨List.forall_mem_nil _, isClean_color color⟩

theorem isClean_enumeration {α : Type} [Enumeration α]
    (htype : IsClean (Enumeration.typeName α).toList)
    (hname : ∀ a : α, IsClean (Enumeration.itemName a).toList) (a : α) :
    IsClean (Enumeration.text a).toList := by
  have htext : (Enumeration.text a).toList = "Enum".toList ++ '.' ::
      ((Enumeration.typeName α).toList ++ '.' :: (Enumeration.itemName a).toList) := by
    simp [Enumeration.text, Enumeration.item, EnumItem.text, toString]
  rw [htext]
  exact .join (by decide) (htype.join (hname a))

theorem isFinite_item {α : Type} [Enumeration α] {a : α}
    (htype : IsClean (Enumeration.typeName α).toList)
    (hname : ∀ a : α, IsClean (Enumeration.itemName a).toList) :
    (AttributeValue.ofItem a).IsFinite :=
  ⟨List.forall_mem_nil _, isClean_enumeration htype hname a⟩

theorem isFinite_font {font : FontFace} (h : font.family = FontFace.standard.family) :
    (AttributeValue.font font).IsFinite := by
  have hfamily : IsClean font.family.toList := by
    rw [h]
    decide +kernel
  have hweight : IsClean (Enumeration.text font.weight).toList :=
    isClean_enumeration (by decide) (by intro weight; cases weight <;> decide) font.weight
  have hstyle : IsClean (Enumeration.text font.style).toList :=
    isClean_enumeration (by decide) (by intro style; cases style <;> decide) font.style
  -- The family has all letters of `inf`, so the text is taken apart at its marks.
  have htext : font.text.toList = "new Font(".toList ++ '"' :: (font.family.toList ++ '"' ::
      ([] ++ ',' :: ([] ++ ' ' :: ((Enumeration.text font.weight).toList ++ ',' ::
        ([] ++ ' ' :: ((Enumeration.text font.style).toList ++ ')' :: [])))))) := by
    unfold FontFace.text
    simp only [String.toList_append, List.append_assoc]
    rfl
  refine ⟨List.forall_mem_nil _, ?_⟩
  show IsClean font.text.toList
  rw [htext]
  exact .join (by decide) (.join hfamily (.join isClean_nil (.join isClean_nil
    (.join hweight (.join isClean_nil (.join hstyle isClean_nil))))))

theorem isFinite_bool (b : Bool) : (AttributeValue.bool b).IsFinite :=
  ⟨List.forall_mem_nil _, by cases b <;> decide⟩

theorem isFinite_empty : AttributeValue.empty.IsFinite := ⟨List.forall_mem_nil _, isClean_nil⟩

end ClassStyle
