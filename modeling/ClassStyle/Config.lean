import ClassStyle.Failure
import ClassStyle.Toml.Document

/-!
# Configurations

A configuration names the stylesheet of a project. It is written in TOML.
-/

namespace ClassStyle

structure Config where
  cssFile : Path
  deriving DecidableEq

namespace Config

/-- The configuration that holds when nothing is said. -/
def standard : Config := ⟨⟨"src/roblox.css"⟩⟩

instance : Inhabited Config := ⟨standard⟩

/-- The two spellings of the only key that counts. -/
def keys : List String := ["cssFilePath", "css_file_path"]

/-- The configuration of the entries of a document. The key may stand there once. -/
def ofEntries (source : Option Path) (entries : Toml.Entries) : Except Failure Config :=
  match keys.filterMap entries.find? with
  | [] => .ok standard
  | [.value (.string text)] => .ok ⟨⟨text⟩⟩
  | [_] => .error (.invalidConfig source "the path of the stylesheet is no string")
  | _ => .error (.invalidConfig source "the path of the stylesheet is given twice")

/-- The configuration of a document, which may have been read from a file. -/
def ofToml (source : Option Path) (document : String) : Except Failure Config :=
  match Toml.read? document.toList with
  | none => .error (.invalidConfig source "the document is no TOML")
  | some entries => ofEntries source entries

/-- The configuration of a file. A relative path of a stylesheet is seen from the directory of the
file. -/
def ofFile (tree : FileTree) (path : Path) : Except Failure Config := do
  let document ← (tree.readText path).mapError (Failure.unreadable path)
  let config ← ofToml (some path) document
  match path.parent? with
  | some dir => .ok ⟨dir.join config.cssFile⟩
  | none => .ok config

end Config

end ClassStyle
