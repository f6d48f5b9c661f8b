import ClassStyle.Synthesis.Output
import ClassStyle.Synthesis.Style

/-!
# Settings

A declaration whose value can be read sets one thing: an attribute, a node, or a part of the
style. What a style holds at the end makes up the last attributes and nodes.
-/

namespace ClassStyle

/-! ## Changes of a style -/

/-- A change of one part of a style. Along which axis of the target the children are placed
depends on the direction of the layout at the time of the change. -/
inductive StyleEdit where
  | fontWeight (weight : FontWeight)
  | fontStyle (style : FontStyle)
  | padding (values : List UDim)
  | paddingSide (side : Side) (value : UDim)
  | borderWidth (width : Float)
  | borderColor (color : Color)
  | borderTransparency (transparency : Float)
  | flexEnabled
  | direction (direction : FillDirection)
  | mainPlacement (placement : Placement)
  | mainDistribution (alignment : FlexAlignment)
  | crossPlacement (placement : Placement)
  | crossDistribution (alignment : FlexAlignment)
  | gap (gap : UDim)
  | anchor (x y : Float)
  | anchorX (x : Float)
  | anchorY (y : Float)
  | left (value : UDim)
  | top (value : UDim)
  | width (value : UDim)
  | height (value : UDim)
  | minWidth (bound : SizeBound)
  | minHeight (bound : SizeBound)
  | maxWidth (bound : SizeBound)
  | maxHeight (bound : SizeBound)
  deriving DecidableEq, Inhabited

def Flex.edit (f : Flex) : StyleEdit → Flex
  | .flexEnabled => { f with enabled := true }
  | .direction direction => { f with direction }
  | .mainPlacement placement => f.align f.mainAxis placement
  | .mainDistribution alignment => f.distribute f.mainAxis alignment
  | .crossPlacement placement => f.align f.crossAxis placement
  | .crossDistribution alignment => f.distribute f.crossAxis alignment
  | .gap gap => { f with gap }
  | _ => f

def FontFace.edit (f : FontFace) : StyleEdit → FontFace
  | .fontWeight weight => { f with weight }
  | .fontStyle style => { f with style }
  | _ => f

def Padding.edit (p : Padding) : StyleEdit → Padding
  | .padding values => p.setAll values
  | .paddingSide side value => p.set side value
  | _ => p

def Border.edit (b : Border) : StyleEdit → Border
  | .borderWidth width => { b with width }
  | .borderColor color => { b with color := some color }
  | .borderTransparency transparency => { b with transparency }
  | _ => b

def Size.edit (s : Size) : StyleEdit → Size
  | .width width => { s with width }
  | .height height => { s with height }
  | .minWidth minWidth => { s with minWidth }
  | .minHeight minHeight => { s with minHeight }
  | .maxWidth maxWidth => { s with maxWidth }
  | .maxHeight maxHeight => { s with maxHeight }
  | _ => s

def Position.edit (p : Position) : StyleEdit → Position
  | .left left => { p with left }
  | .top top => { p with top }
  | _ => p

def Vector2.editAnchor (v : Vector2) : StyleEdit → Vector2
  | .anchor x y => ⟨x, y⟩
  | .anchorX x => { v with x }
  | .anchorY y => { v with y }
  | _ => v

/-- Changes the one part of a style that an edit is about. -/
def Style.edit (s : Style) (e : StyleEdit) : Style where
  font := s.font.edit e
  padding := s.padding.edit e
  flex := s.flex.edit e
  anchor := s.anchor.editAnchor e
  border := s.border.edit e
  size := s.size.edit e
  position := s.position.edit e

/-! ## What a style makes -/

namespace Style

/-- The attributes of a style, each only if it says something. The font is one of text. -/
def attributes (s : Style) (isText : Bool) : List (String × AttributeValue) :=
  (if isText && s.font ≠ .standard then [("FontFace", .font s.font)] else []) ++
  (if s.anchor.same .zero then [] else [("AnchorPoint", .vector2 s.anchor)]) ++
  (if s.size.hasStandardExtent then [] else [("Size", .udim2 s.size.extent)]) ++
  (if s.position.isZero then []
    else [("Position", .udim2 ⟨s.position.left, s.position.top⟩)])

def paddingNode (p : Padding) : Node :=
  .ofList .padding
    [("PaddingLeft", .udim p.left), ("PaddingRight", .udim p.right),
      ("PaddingTop", .udim p.top), ("PaddingBottom", .udim p.bottom)]

def strokeNode (b : Border) : Node :=
  .ofList .stroke
    [("Thickness", .number b.width),
      ("Color", (b.color.map AttributeValue.color).getD .empty),
      ("Transparency", .number b.transparency),
      ("ApplyStrokeMode", .ofItem StrokeMode.border)]

def sizeNode (s : Size) : Node :=
  .ofList .sizeConstraint
    [("MinSize", .bounds s.minWidth s.minHeight), ("MaxSize", .bounds s.maxWidth s.maxHeight)]

def layoutNode (f : Flex) : Node :=
  .ofList .listLayout
    [("FillDirection", .ofItem f.direction), ("HorizontalFlex", .ofItem f.horizontalFlex),
      ("VerticalFlex", .ofItem f.verticalFlex),
      ("HorizontalAlignment", .ofItem f.horizontalAlignment),
      ("VerticalAlignment", .ofItem f.verticalAlignment), ("Padding", .udim f.gap),
      ("Wraps", .bool f.wraps)]

/-- The nodes of a style, each only if it says something. -/
def nodes (s : Style) : List Node :=
  (if s.padding.isZero then [] else [paddingNode s.padding]) ++
  (if s.border.isStandard then [] else [strokeNode s.border]) ++
  (if s.size.isBounded then [sizeNode s.size] else []) ++
  (if s.flex.enabled then [layoutNode s.flex] else [])

def warnings (s : Style) : List Warning :=
  if !s.border.isStandard && s.border.color.isNone then [.strokeWithoutColor] else []

end Style

/-! ## Drafts -/

inductive Setting where
  /-- An attribute of the element itself. -/
  | element (name : String) (value : AttributeValue)
  | node (node : Node)
  | style (edit : StyleEdit)
  deriving DecidableEq, Inhabited

/-- What the declarations read so far set. -/
structure Draft where
  attributes : Attributes
  nodes : List Node
  style : Style
  deriving DecidableEq, Inhabited

namespace Draft

def empty : Draft := ⟨.empty, [], .standard⟩

def set (d : Draft) : Setting → Draft
  | .element name value => { d with attributes := d.attributes.put name value }
  | .node node => { d with nodes := d.nodes ++ [node] }
  | .style edit => { d with style := d.style.edit edit }

def setAll (d : Draft) (settings : List Setting) : Draft := settings.foldl set d

end Draft

end ClassStyle
