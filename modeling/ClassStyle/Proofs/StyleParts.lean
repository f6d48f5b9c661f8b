import ClassStyle.Proofs.Layouts
import ClassStyle.Proofs.Shorthands

/-!
# Parts of a style

A style holds the fields that one property writes, the parts that two properties share, and four
slots of the layout, which are written along one axis or the other. Nothing else in it changes, so
drafts that agree in these have the same style (`Sheet.style_draft_ext`).
-/

namespace ClassStyle

/-! ## Slots of a layout -/

/-- What `justify-content` and `align-items` say for an axis of the target: the place of the
children along it, and how the free space is shared. -/
inductive LayoutSlot where
  | place (axis : Axis)
  | share (axis : Axis)
  deriving DecidableEq

namespace LayoutSlot

@[reducible]
def Content : LayoutSlot → Type
  | place .x => HorizontalAlignment
  | place .y => VerticalAlignment
  | share _ => FlexAlignment

def content (f : Flex) : (slot : LayoutSlot) → slot.Content
  | place .x => f.horizontalAlignment
  | place .y => f.verticalAlignment
  | share .x => f.horizontalFlex
  | share .y => f.verticalFlex

def placed (placement : Placement) : (axis : Axis) → (place axis).Content
  | .x => placement.horizontal
  | .y => placement.vertical

/-- What an edit writes into the slot, if anything. Of the layout only the direction counts. -/
def written? (f : Flex) : (slot : LayoutSlot) → StyleEdit → Option slot.Content
  | place axis, .mainPlacement placement =>
    if f.mainAxis = axis then some (placed placement axis) else none
  | place axis, .crossPlacement placement =>
    if f.crossAxis = axis then some (placed placement axis) else none
  | share axis, .mainDistribution alignment => if f.mainAxis = axis then some alignment else none
  | share axis, .crossDistribution alignment => if f.crossAxis = axis then some alignment else none
  | _, _ => none

theorem written?_congr {f f' : Flex} (h : f.direction = f'.direction) (slot : LayoutSlot) :
    slot.written? f = slot.written? f' := by
  have hmain : f.mainAxis = f'.mainAxis := by
    unfold Flex.mainAxis
    rw [h]
  have hcross : f.crossAxis = f'.crossAxis := congrArg Axis.opposite hmain
  funext e
  cases slot <;> cases e <;> simp only [written?, hmain, hcross]

theorem content_edit (f : Flex) (e : StyleEdit) (slot : LayoutSlot) :
    slot.content (f.edit e) = (slot.written? f e).getD (slot.content f) := by
  -- Once the axes are known, each edit either writes the slot or leaves it as it is.
  have hcross : f.crossAxis = f.mainAxis.opposite := rfl
  cases e with
  | mainPlacement | mainDistribution | crossPlacement | crossDistribution =>
    rcases slot with (_ | _) | (_ | _) <;> cases hmain : f.mainAxis <;>
      rw [hmain] at hcross <;> simp only [written?, Flex.edit, hmain, hcross] <;> rfl
  | _ => rcases slot with (_ | _) | (_ | _) <;> rfl

theorem property_of_written? {f : Flex} {e : StyleEdit} {slot : LayoutSlot} {v : slot.Content}
    (h : slot.written? f e = some v) :
    e.property = .justifyContent ∨ e.property = .alignItems := by
  cases slot <;> cases e <;> first | exact .inl rfl | exact .inr rfl | cases h

end LayoutSlot

/-! ## Styles -/

/-- Styles are the same if all parts are that are ever written, and the two that never are. -/
theorem Style.ext_parts {s s' : Style} (hfamily : s.font.family = s'.font.family)
    (hwraps : s.flex.wraps = s'.flex.wraps) (hfield : ∀ f : StyleField, f.content s = f.content s')
    (hshared : ∀ part : SharedPart, part.content s = part.content s')
    (hslot : ∀ slot : LayoutSlot, slot.content s.flex = slot.content s'.flex) : s = s' := by
  obtain ⟨font, padding, flex, anchor, border, size, position⟩ := s
  obtain ⟨font', padding', flex', anchor', border', size', position'⟩ := s'
  have hfont : font = font' :=
    (FontFace.mk.injEq ..).mpr ⟨hfamily, hfield .fontWeight, hfield .fontStyle⟩
  have hpadding : padding = padding' :=
    (Padding.mk.injEq ..).mpr ⟨hshared (.padding .left), hshared (.padding .right),
      hshared (.padding .top), hshared (.padding .bottom)⟩
  have hflex : flex = flex' :=
    (Flex.mk.injEq ..).mpr ⟨hfield .display, hfield .flexDirection, hslot (.share .x),
      hslot (.share .y), hslot (.place .x), hslot (.place .y), hfield .gap, hwraps⟩
  have hanchor : anchor = anchor' :=
    (Vector2.mk.injEq ..).mpr ⟨hshared (.anchor .x), hshared (.anchor .y)⟩
  have hborder : border = border' :=
    (Border.mk.injEq ..).mpr ⟨hfield .borderWidth, hfield .borderColor, hfield .borderOpacity⟩
  have hsize : size = size' :=
    (Size.mk.injEq ..).mpr ⟨hfield .minWidth, hfield .minHeight, hfield .maxWidth,
      hfield .maxHeight, hfield .width, hfield .height⟩
  have hposition : position = position' :=
    (Position.mk.injEq ..).mpr ⟨hfield .left, hfield .top⟩
  rw [hfont, hpadding, hflex, hanchor, hborder, hsize, hposition]

/-! ## Drafts -/

theorem wraps_draft (sheet : Sheet) (request : Request) :
    (sheet.draft request).style.flex.wraps = false := by
  rw [draft_eq_foldl]
  exact List.foldlRecOn (motive := fun d : Draft => d.style.flex.wraps = false) _ _ rfl
    fun d hd a _ => wraps_apply.trans hd

theorem Sheet.style_draft_ext {sheet sheet' : Sheet} {request request' : Request}
    (hfield : ∀ f : StyleField, sheet.final request.classes f = sheet'.final request'.classes f)
    (hshared : ∀ part : SharedPart, part.content (sheet.draft request).style =
      part.content (sheet'.draft request').style)
    (hslot : ∀ slot : LayoutSlot, slot.content (sheet.draft request).style.flex =
      slot.content (sheet'.draft request').style.flex) :
    (sheet.draft request).style = (sheet'.draft request').style := by
  refine Style.ext_parts ?_ ?_ (fun f => ?_) hshared hslot
  · rw [(bounded_draft sheet request).family, (bounded_draft sheet' request').family]
  · rw [wraps_draft, wraps_draft]
  · rw [content_draft, content_draft, hfield]

end ClassStyle
