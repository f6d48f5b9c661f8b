import ClassStyle.Sheet.Rule
import ClassStyle.Storage.Path

/-!
# Sheets

The rules of a stylesheet by class, and the file that they were read from.
-/

namespace ClassStyle

structure Sheet where
  classes : SortedMap Rule
  source : Option Path
  deriving DecidableEq, Inhabited

namespace Sheet

def empty : Sheet := ⟨.empty, none⟩

def get? (sheet : Sheet) (className : String) : Option Rule := sheet.classes.get? className

def contains (sheet : Sheet) (className : String) : Bool := sheet.classes.contains className

def size (sheet : Sheet) : Nat := sheet.classes.size

def isEmpty (sheet : Sheet) : Bool := sheet.classes.isEmpty

/-- Adds a rule. An earlier rule of the class gives way as a whole. -/
def insert (sheet : Sheet) (className : String) (rule : Rule) : Sheet :=
  { sheet with classes := sheet.classes.insert className rule }

@[simp] theorem get?_empty (className : String) : empty.get? className = none := rfl

theorem get?_insert (sheet : Sheet) (className other : String) (rule : Rule) :
    (sheet.insert className rule).get? other =
      if className = other then some rule else sheet.get? other :=
  SortedMap.get?_insert sheet.classes className other rule

end Sheet

end ClassStyle
