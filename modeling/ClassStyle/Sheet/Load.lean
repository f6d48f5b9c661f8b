import ClassStyle.Css.Stylesheet
import ClassStyle.Failure

/-!
# Loading sheets

Sheets are read from files of a tree, with or without an empty sheet in place of a failure.
-/

namespace ClassStyle

namespace Sheet

/-- The end of a record that tells how many classes a sheet has. -/
def countText (sheet : Sheet) : String := s!"({sheet.size} classes)"

/-- The sheet of a file, which remembers the path. -/
def ofFile (tree : FileTree) (path : Path) : Logged (Except Failure Sheet) :=
  match tree.readText path with
  | .error fault => pure (.error (.unreadable path fault))
  | .ok css => do
    let sheet ← ofCss css
    pure (.ok { sheet with source := some path })

/-- The sheet of a file, or an empty one. -/
def ofFileOrEmpty (tree : FileTree) (path : Path) : Logged Sheet := do
  match ← ofFile tree path with
  | .ok sheet =>
    Logged.report .debug .cache ("Loaded stylesheet " ++ path.text ++ " " ++ sheet.countText)
    pure sheet
  | .error (.unreadable _ .notFound) =>
    Logged.report .warn .cache ("CSS file not found: " ++ path.text)
    pure empty
  | .error failure =>
    Logged.report .warn .cache failure.message
    pure empty

end Sheet

end ClassStyle
