import ClassStyle.Number.Decimal
import ClassStyle.Text.Blank

/-!
# Lengths

A length is a number with a unit. Lengths are read from a text of words: a numeral may carry its
unit glued to it (`2rem`) or as the next word (`2 rem`), and without a unit it counts as pixels.
-/

namespace ClassStyle

open Text

inductive LengthUnit where
  | px
  | rem
  | em
  | vw
  | vh
  | percent
  deriving DecidableEq, Inhabited

structure Length where
  value : Float
  unit : LengthUnit
  deriving DecidableEq, Inhabited

namespace LengthUnit

/-- The unit of a name in any case. Unknown names are pixels. -/
def ofName (name : List Char) : LengthUnit :=
  let name := lower name
  if name = ['r', 'e', 'm'] then rem
  else if name = ['e', 'm'] then em
  else if name = ['v', 'w'] then vw
  else if name = ['v', 'h'] then vh
  else if name = ['%'] then percent
  else px

/-- The unit is a part of some container. -/
def isRelative : LengthUnit → Bool
  | vw | vh | percent => true
  | _ => false

end LengthUnit

/-! ## Pixels -/

/-- The font size of the root in pixels, and of a class that names none. -/
def baseFontSize : Float := 16

def remToPixels (value : Float) : Float := value * baseFontSize

def emToPixels (value fontSize : Float) : Float := value * fontSize

namespace Length

/-- A length in pixels under a font size. Viewport and percent units count as pixels here. -/
def toPixels (length : Length) (fontSize : Float) : Float :=
  match length.unit with
  | .rem => remToPixels length.value
  | .em => emToPixels length.value fontSize
  | _ => length.value

/-! ## Reading -/

/-- Splits a word into the numeral at its front, as written, and the rest. Without a numeral
the first part is empty. -/
def splitNumeral (word : List Char) : List Char × List Char :=
  match Numeral.scan true word with
  | some (n, rest) => (n.source, rest)
  | none => ([], word)

theorem splitNumeral_append (word : List Char) :
    (splitNumeral word).1 ++ (splitNumeral word).2 = word := by
  unfold splitNumeral
  split
  · next h => exact Numeral.source_append_of_scan h
  · rfl

/-- Gives the last length of a list its unit. -/
def setLastUnit (unit : LengthUnit) : List Length → List Length
  | [] => []
  | [last] => [{ last with unit }]
  | first :: rest => first :: setLastUnit unit rest

/-- The lengths read so far, and whether the last one may still get a unit. -/
structure Reading where
  lengths : List Length
  awaitsUnit : Bool
  deriving DecidableEq, Inhabited

/-- Reads one more word: a numeral with or without a unit, a unit for the numeral right before,
or a word that only breaks the two apart. -/
def Reading.word (reading : Reading) (word : List Char) : Reading :=
  let (numeral, unit) := splitNumeral word
  if numeral = [] then
    { lengths :=
        if reading.awaitsUnit then setLastUnit (LengthUnit.ofName unit) reading.lengths
        else reading.lengths
      awaitsUnit := false }
  else match readFloat? numeral with
    | some value =>
      { lengths := reading.lengths ++ [{ value, unit := LengthUnit.ofName unit }]
        awaitsUnit := unit.isEmpty }
    | none => { reading with awaitsUnit := false }

/-- All lengths of a text, in order. -/
def readAll (text : List Char) : List Length :=
  ((words text).foldl Reading.word ⟨[], false⟩).lengths

/-- The first length of a text. -/
def read? (text : List Char) : Option Length := (readAll text).head?

/-- The number of the first length, whatever its unit. -/
def firstNumber? (text : List Char) : Option Float := (read? text).map Length.value

end Length

end ClassStyle
