import ClassStyle.Number.Plain

/-!
# Geometry of the target

Lengths in two components (a fraction of the container and pixels), pairs of them, vectors, and
bounds of a size. Each is written as the expression that builds it on the target. They are
compared as numbers are: both zeros are the same, and what is no number is the same as nothing.
-/

namespace ClassStyle

/-- A screen axis. -/
inductive Axis where
  | x
  | y
  deriving DecidableEq, Inhabited

def Axis.opposite : Axis → Axis
  | x => y
  | y => x

def Axis.text : Axis → String
  | x => "X"
  | y => "Y"

/-- A fraction of the container plus pixels. -/
structure UDim where
  scale : Float
  offset : Float
  deriving DecidableEq, Inhabited

namespace UDim

def zero : UDim := ⟨0, 0⟩

def ofOffset (offset : Float) : UDim := ⟨0, offset⟩

def ofScale (scale : Float) : UDim := ⟨scale, 0⟩

def same (u v : UDim) : Bool := u.scale == v.scale && u.offset == v.offset

def isZero (u : UDim) : Bool := u.same zero

def text (u : UDim) : String := s!"new UDim({floatText u.scale}, {floatText u.offset})"

end UDim

/-- A horizontal and a vertical component. -/
structure UDim2 where
  x : UDim
  y : UDim
  deriving DecidableEq, Inhabited

def UDim2.text (u : UDim2) : String := s!"new UDim2({u.x.text}, {u.y.text})"

structure Vector2 where
  x : Float
  y : Float
  deriving DecidableEq, Inhabited

def Vector2.zero : Vector2 := ⟨0, 0⟩

def Vector2.same (v w : Vector2) : Bool := v.x == w.x && v.y == w.y

def Vector2.text (v : Vector2) : String := s!"new Vector2({floatText v.x}, {floatText v.y})"

/-- A least or greatest size. The target works out fractions of its viewport itself. -/
inductive SizeBound where
  | px (value : Float)
  | viewport (axis : Axis) (fraction : Float)
  | unbounded
  deriving DecidableEq, Inhabited

namespace SizeBound

def same : SizeBound → SizeBound → Bool
  | px a, px b => a == b
  | viewport axis a, viewport other b => axis == other && a == b
  | unbounded, unbounded => true
  | _, _ => false

def text : SizeBound → String
  | px value => floatText value
  | viewport axis fraction =>
    s!"workspace.CurrentCamera.ViewportSize.{axis.text} * {floatText fraction}"
  | unbounded => "math.huge"

end SizeBound

end ClassStyle
