import ClassStyle.Collection.ArrivalMap
import ClassStyle.Target.Color
import ClassStyle.Target.Enumeration
import ClassStyle.Target.Geometry

/-!
# Attributes of the target

The values that an element's attributes take, and the sets of attributes in the order in which
they were first set. A value is written as the expression that builds it on the target.
-/

namespace ClassStyle

/-- A font: the asset of its family, its weight and its style. -/
structure FontFace where
  family : String
  weight : FontWeight
  style : FontStyle
  deriving DecidableEq

namespace FontFace

/-- The font that a text has when nothing is said. -/
def standard : FontFace where
  family := "rbxasset://fonts/families/SourceSansPro.json"
  weight := Enumeration.standard
  style := Enumeration.standard

instance : Inhabited FontFace := ⟨standard⟩

def text (font : FontFace) : String :=
  "new Font(\"" ++ font.family ++ "\", " ++ Enumeration.text font.weight ++ ", " ++
    Enumeration.text font.style ++ ")"

end FontFace

inductive AttributeValue where
  | number (value : Float)
  | bool (value : Bool)
  | color (value : Color)
  | udim (value : UDim)
  | udim2 (value : UDim2)
  | vector2 (value : Vector2)
  /-- A vector whose components are bounds of a size. -/
  | bounds (x y : SizeBound)
  | item (value : EnumItem)
  | font (value : FontFace)
  /-- No value, written as nothing. -/
  | empty
  deriving DecidableEq, Inhabited

namespace AttributeValue

def ofItem {α : Type} [Enumeration α] (a : α) : AttributeValue := item (Enumeration.item a)

def text : AttributeValue → String
  | number value => floatText value
  | bool value => if value then "true" else "false"
  | color value => value.text
  | udim value => value.text
  | udim2 value => value.text
  | vector2 value => value.text
  | bounds x y => s!"new Vector2({x.text}, {y.text})"
  | item value => value.text
  | font value => value.text
  | empty => ""

def number? : AttributeValue → Option Float
  | number value => some value
  | _ => none

def color? : AttributeValue → Option Color
  | color value => some value
  | _ => none

def udim? : AttributeValue → Option UDim
  | udim value => some value
  | _ => none

def udim2? : AttributeValue → Option UDim2
  | udim2 value => some value
  | _ => none

def item? : AttributeValue → Option EnumItem
  | item value => some value
  | _ => none

end AttributeValue

abbrev Attributes := ArrivalMap AttributeValue

end ClassStyle
