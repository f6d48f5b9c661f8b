import ClassStyle.Synthesis.Style

/-!
# Properties

The properties of a stylesheet that say something about an element of the target. All others say
nothing.
-/

namespace ClassStyle

inductive Property where
  | color
  | backgroundColor
  | backgroundOpacity
  | textOpacity
  | opacity
  | fontWeight
  | fontStyle
  | fontSize
  | lineHeight
  | textAlign
  | verticalAlign
  | padding
  | paddingSide (side : Side)
  | borderRadius
  | aspectRatio
  | borderWidth
  | borderColor
  | borderOpacity
  | borderStyle
  | borderSideWidth (side : Side)
  | display
  | flexDirection
  | flexWrap
  | justifyContent
  | alignItems
  | gap
  | anchorPoint
  | anchorPointX
  | anchorPointY
  | left
  | top
  | width
  | height
  | minWidth
  | minHeight
  | maxWidth
  | maxHeight
  deriving DecidableEq, Inhabited

def Side.name : Side → String
  | left => "left"
  | right => "right"
  | top => "top"
  | bottom => "bottom"

namespace Property

def name : Property → String
  | color => "color"
  | backgroundColor => "background-color"
  | backgroundOpacity => "background-opacity"
  | textOpacity => "text-opacity"
  | opacity => "opacity"
  | fontWeight => "font-weight"
  | fontStyle => "font-style"
  | fontSize => "font-size"
  | lineHeight => "line-height"
  | textAlign => "text-align"
  | verticalAlign => "vertical-align"
  | padding => "padding"
  | paddingSide side => "padding-" ++ side.name
  | borderRadius => "border-radius"
  | aspectRatio => "aspect-ratio"
  | borderWidth => "border-width"
  | borderColor => "border-color"
  | borderOpacity => "border-opacity"
  | borderStyle => "border-style"
  | borderSideWidth side => "border-" ++ side.name ++ "-width"
  | display => "display"
  | flexDirection => "flex-direction"
  | flexWrap => "flex-wrap"
  | justifyContent => "justify-content"
  | alignItems => "align-items"
  | gap => "gap"
  | anchorPoint => "anchor-point"
  | anchorPointX => "anchor-point-x"
  | anchorPointY => "anchor-point-y"
  | left => "left"
  | top => "top"
  | width => "width"
  | height => "height"
  | minWidth => "min-width"
  | minHeight => "min-height"
  | maxWidth => "max-width"
  | maxHeight => "max-height"

def all : List Property :=
  [color, backgroundColor, backgroundOpacity, textOpacity, opacity, fontWeight, fontStyle,
    fontSize, lineHeight, textAlign, verticalAlign, padding, paddingSide .left,
    paddingSide .right, paddingSide .top, paddingSide .bottom, borderRadius, aspectRatio,
    borderWidth, borderColor, borderOpacity, borderStyle, borderSideWidth .left,
    borderSideWidth .right, borderSideWidth .top, borderSideWidth .bottom, display,
    flexDirection, flexWrap, justifyContent, alignItems, gap, anchorPoint, anchorPointX,
    anchorPointY, left, top, width, height, minWidth, minHeight, maxWidth, maxHeight]

theorem mem_all (property : Property) : property ∈ all := by
  cases property with
  | paddingSide side => cases side <;> decide
  | borderSideWidth side => cases side <;> decide
  | _ => decide

/-- The property of a name. -/
def ofName? (name : String) : Option Property := all.find? fun property => property.name == name

theorem name_of_ofName? {name : String} {property : Property} (h : ofName? name = some property) :
    property.name = name := by
  simpa using List.find?_some h

theorem ofName?_name (property : Property) : ofName? property.name = some property := by
  have hall : ∀ p ∈ all, ofName? p.name = some p := by decide +kernel
  exact hall property (mem_all property)

/-- Each property has one name, and each name at most one property. -/
theorem ofName?_eq_some_iff {name : String} {property : Property} :
    ofName? name = some property ↔ property.name = name :=
  ⟨name_of_ofName?, fun h => h ▸ ofName?_name property⟩

end Property

end ClassStyle
