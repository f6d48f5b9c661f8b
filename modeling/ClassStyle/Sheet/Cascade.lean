import ClassStyle.Sheet

/-!
# Cascades

The declarations of several classes put together. Of one property the value of the last class
counts, at the place where the property first came.
-/

namespace ClassStyle

/-- Puts the second declarations over the first ones. -/
def Declarations.cascade (base added : Declarations) : Declarations := base.putAll added.entries

namespace Sheet

/-- The rules of the classes that a sheet knows, in the order of the names, as often as they are
named. -/
def matched (sheet : Sheet) (classes : List String) : List (String × Rule) :=
  classes.filterMap fun className => (sheet.get? className).map fun rule => (className, rule)

/-- The declarations of classes put together, those of later classes over those of earlier ones.
Custom properties stay with their rules. -/
def resolve (sheet : Sheet) (classes : List String) : Declarations :=
  (sheet.matched classes).foldl (fun style entry => style.cascade entry.2.declarations) .empty

end Sheet

end ClassStyle
