import ClassStyle.Target.Attribute

/-!
# Styles

What the classes of an element say together where several properties make up one attribute or one
node: font, padding, border, size, position and the layout of the children.
-/

namespace ClassStyle

/-! ## Padding -/

inductive Side where
  | left
  | right
  | top
  | bottom
  deriving DecidableEq, Inhabited

structure Padding where
  left : UDim
  right : UDim
  top : UDim
  bottom : UDim
  deriving DecidableEq, Inhabited

namespace Padding

def zero : Padding := ⟨.zero, .zero, .zero, .zero⟩

def isZero (p : Padding) : Bool :=
  p.left.isZero && p.right.isZero && p.top.isZero && p.bottom.isZero

def set (p : Padding) (side : Side) (value : UDim) : Padding :=
  match side with
  | .left => { p with left := value }
  | .right => { p with right := value }
  | .top => { p with top := value }
  | .bottom => { p with bottom := value }

/-- The padding of one to four values: the top, the right, the bottom and the left. A side that
is left out is like the one across, and that like the top. -/
def setAll (p : Padding) : List UDim → Padding
  | [] => p
  | [all] => ⟨all, all, all, all⟩
  | [vertical, horizontal] => ⟨horizontal, horizontal, vertical, vertical⟩
  | [top, horizontal, bottom] => ⟨horizontal, horizontal, top, bottom⟩
  | top :: right :: bottom :: left :: _ => ⟨left, right, top, bottom⟩

end Padding

/-! ## Layout of the children -/

/-- The place of children along an axis. -/
inductive Placement where
  | start
  | center
  | finish
  deriving DecidableEq, Inhabited

def Placement.horizontal : Placement → HorizontalAlignment
  | start => .left
  | center => .center
  | finish => .right

def Placement.vertical : Placement → VerticalAlignment
  | start => .top
  | center => .center
  | finish => .bottom

structure Flex where
  enabled : Bool
  direction : FillDirection
  horizontalFlex : FlexAlignment
  verticalFlex : FlexAlignment
  horizontalAlignment : HorizontalAlignment
  verticalAlignment : VerticalAlignment
  gap : UDim
  wraps : Bool
  deriving DecidableEq

namespace Flex

def standard : Flex where
  enabled := false
  direction := Enumeration.standard
  horizontalFlex := Enumeration.standard
  verticalFlex := Enumeration.standard
  horizontalAlignment := Enumeration.standard
  verticalAlignment := Enumeration.standard
  gap := .zero
  wraps := false

instance : Inhabited Flex := ⟨standard⟩

/-- The axis along which the children follow each other. -/
def mainAxis (f : Flex) : Axis :=
  match f.direction with
  | .horizontal => .x
  | .vertical => .y

def crossAxis (f : Flex) : Axis := f.mainAxis.opposite

/-- Places the children along an axis. -/
def align (f : Flex) (axis : Axis) (placement : Placement) : Flex :=
  match axis with
  | .x => { f with horizontalAlignment := placement.horizontal }
  | .y => { f with verticalAlignment := placement.vertical }

/-- Shares the free space along an axis. -/
def distribute (f : Flex) (axis : Axis) (alignment : FlexAlignment) : Flex :=
  match axis with
  | .x => { f with horizontalFlex := alignment }
  | .y => { f with verticalFlex := alignment }

end Flex

/-! ## Border -/

structure Border where
  width : Float
  color : Option Color
  transparency : Float
  deriving DecidableEq, Inhabited

namespace Border

def standard : Border := ⟨0, none, 0⟩

/-- The border says nothing. -/
def isStandard (b : Border) : Bool := b.width == 0 && b.color.isNone && b.transparency == 0

end Border

/-! ## Size and position -/

/-- The width or the height that an element has when nothing is said. -/
def standardExtent : UDim := .ofOffset 100

structure Size where
  minWidth : SizeBound
  minHeight : SizeBound
  maxWidth : SizeBound
  maxHeight : SizeBound
  width : UDim
  height : UDim
  deriving DecidableEq, Inhabited

namespace Size

def standard : Size where
  minWidth := .px 0
  minHeight := .px 0
  maxWidth := .unbounded
  maxHeight := .unbounded
  width := standardExtent
  height := standardExtent

/-- Some bound is not the one that holds when nothing is said. -/
def isBounded (s : Size) : Bool :=
  !(s.minWidth.same standard.minWidth && s.minHeight.same standard.minHeight &&
    s.maxWidth.same standard.maxWidth && s.maxHeight.same standard.maxHeight)

/-- Both extents are the ones that hold when nothing is said. -/
def hasStandardExtent (s : Size) : Bool :=
  s.width.same standardExtent && s.height.same standardExtent

def extent (s : Size) : UDim2 := ⟨s.width, s.height⟩

end Size

structure Position where
  left : UDim
  top : UDim
  deriving DecidableEq, Inhabited

namespace Position

def zero : Position := ⟨.zero, .zero⟩

def isZero (p : Position) : Bool := p.left.isZero && p.top.isZero

end Position

/-! ## All together -/

structure Style where
  font : FontFace
  padding : Padding
  flex : Flex
  anchor : Vector2
  border : Border
  size : Size
  position : Position
  deriving DecidableEq

/-- The style of an element whose classes say nothing. -/
def Style.standard : Style where
  font := .standard
  padding := .zero
  flex := .standard
  anchor := .zero
  border := .standard
  size := .standard
  position := .zero

instance : Inhabited Style := ⟨.standard⟩

end ClassStyle
