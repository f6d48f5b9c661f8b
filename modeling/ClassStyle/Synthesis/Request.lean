import ClassStyle.Text.Blank

/-!
# Requests

The classes that an element names, and whether it shows text.
-/

namespace ClassStyle

structure Request where
  /-- In the order in which they apply. A class may come again. -/
  classes : List String
  isText : Bool
  deriving DecidableEq, Inhabited

/-- The request of a class attribute, in which blanks stand between the names. -/
def Request.ofClassName (className : String) (isText : Bool) : Request :=
  ⟨(Text.words className.toList).map String.ofList, isText⟩

end ClassStyle
