import ClassStyle.Collection.ArrivalMap
import ClassStyle.Collection.SortedMap

/-!
# Rules

What a stylesheet says of one class: its declarations in the order in which their properties first
came, and the custom properties that they were written with.
-/

namespace ClassStyle

/-- Values by property. -/
abbrev Declarations := ArrivalMap String

structure Rule where
  /-- The custom properties, as they stand in the text. -/
  custom : SortedMap String
  declarations : Declarations
  deriving DecidableEq, Inhabited

namespace Rule

def empty : Rule := ⟨.empty, .empty⟩

/-- The full name of a custom property, whose two leading dashes may be left out. -/
def customName (name : String) : String :=
  match name.toList with
  | '-' :: '-' :: _ => name
  | _ => "--" ++ name

def custom? (rule : Rule) (name : String) : Option String :=
  rule.custom.get? (customName name)

end Rule

end ClassStyle
