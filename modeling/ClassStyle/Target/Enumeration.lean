/-!
# Enumerations of the target

Items of enumerations that the target platform knows. An item is written
`Enum.<type>.<item>`.
-/

namespace ClassStyle

/-- An item of any enumeration, by its names. -/
structure EnumItem where
  typeName : String
  name : String
  deriving DecidableEq, Inhabited

def EnumItem.text (item : EnumItem) : String := s!"Enum.{item.typeName}.{item.name}"

/-- An enumeration: its name on the target, its items in order, and the item that holds when
nothing is said. -/
class Enumeration (α : Type) where
  typeName : String
  items : List α
  itemName : α → String
  standard : α

namespace Enumeration

variable {α : Type} [Enumeration α]

def item (a : α) : EnumItem := ⟨typeName α, itemName a⟩

def text (a : α) : String := (item a).text

/-- The item of a name. -/
def ofName? (α : Type) [Enumeration α] (name : String) : Option α :=
  (items : List α).find? fun a => itemName a == name

end Enumeration

/-! ## The enumerations -/

inductive FontWeight where
  | thin
  | extraLight
  | light
  | regular
  | medium
  | semiBold
  | bold
  | extraBold
  | heavy
  deriving DecidableEq

instance : Enumeration FontWeight where
  typeName := "FontWeight"
  items := [.thin, .extraLight, .light, .regular, .medium, .semiBold, .bold, .extraBold, .heavy]
  itemName
    | .thin => "Thin"
    | .extraLight => "ExtraLight"
    | .light => "Light"
    | .regular => "Regular"
    | .medium => "Medium"
    | .semiBold => "SemiBold"
    | .bold => "Bold"
    | .extraBold => "ExtraBold"
    | .heavy => "Heavy"
  standard := .regular

/-- The weight of a number: the nine hundreds from 100 to 900, and no other. -/
def FontWeight.ofNumber? : Nat → Option FontWeight
  | 100 => some thin
  | 200 => some extraLight
  | 300 => some light
  | 400 => some regular
  | 500 => some medium
  | 600 => some semiBold
  | 700 => some bold
  | 800 => some extraBold
  | 900 => some heavy
  | _ => none

inductive FontStyle where
  | normal
  | italic
  deriving DecidableEq

instance : Enumeration FontStyle where
  typeName := "FontStyle"
  items := [.normal, .italic]
  itemName
    | .normal => "Normal"
    | .italic => "Italic"
  standard := .normal

/-- The main axis of a list layout. -/
inductive FillDirection where
  | horizontal
  | vertical
  deriving DecidableEq

instance : Enumeration FillDirection where
  typeName := "FillDirection"
  items := [.horizontal, .vertical]
  itemName
    | .horizontal => "Horizontal"
    | .vertical => "Vertical"
  standard := .horizontal

/-- How free space is shared along one axis of a list layout. -/
inductive FlexAlignment where
  | none
  | fill
  | spaceAround
  | spaceBetween
  | spaceEvenly
  deriving DecidableEq

instance : Enumeration FlexAlignment where
  typeName := "UIFlexAlignment"
  items := [.none, .fill, .spaceAround, .spaceBetween, .spaceEvenly]
  itemName
    | .none => "None"
    | .fill => "Fill"
    | .spaceAround => "SpaceAround"
    | .spaceBetween => "SpaceBetween"
    | .spaceEvenly => "SpaceEvenly"
  standard := .none

inductive HorizontalAlignment where
  | left
  | center
  | right
  deriving DecidableEq

instance : Enumeration HorizontalAlignment where
  typeName := "HorizontalAlignment"
  items := [.left, .center, .right]
  itemName
    | .left => "Left"
    | .center => "Center"
    | .right => "Right"
  standard := .left

inductive VerticalAlignment where
  | top
  | center
  | bottom
  deriving DecidableEq

instance : Enumeration VerticalAlignment where
  typeName := "VerticalAlignment"
  items := [.top, .center, .bottom]
  itemName
    | .top => "Top"
    | .center => "Center"
    | .bottom => "Bottom"
  standard := .top

inductive TextXAlignment where
  | left
  | center
  | right
  deriving DecidableEq

instance : Enumeration TextXAlignment where
  typeName := "TextXAlignment"
  items := [.left, .center, .right]
  itemName
    | .left => "Left"
    | .center => "Center"
    | .right => "Right"
  standard := .left

inductive TextYAlignment where
  | top
  | center
  | bottom
  deriving DecidableEq

instance : Enumeration TextYAlignment where
  typeName := "TextYAlignment"
  items := [.top, .center, .bottom]
  itemName
    | .top => "Top"
    | .center => "Center"
    | .bottom => "Bottom"
  standard := .top

/-- Where a stroke is drawn. -/
inductive StrokeMode where
  | contextual
  | border
  deriving DecidableEq

instance : Enumeration StrokeMode where
  typeName := "ApplyStrokeMode"
  items := [.contextual, .border]
  itemName
    | .contextual => "Contextual"
    | .border => "Border"
  standard := .contextual

end ClassStyle
