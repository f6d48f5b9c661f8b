import ClassStyle.Storage.FileTree

/-!
# Failures

What can go wrong at the edges: a file cannot be read, a configuration is not valid, or files
cannot be watched. Reading styles and working them out never fails.
-/

namespace ClassStyle

inductive Failure where
  | unreadable (path : Path) (fault : Fault)
  /-- The path is missing if the configuration was not read from a file. -/
  | invalidConfig (path : Option Path) (reason : String)
  | watching (reason : String)
  deriving DecidableEq, Inhabited

namespace Failure

def message : Failure → String
  | unreadable path fault => "Failed to read '" ++ path.text ++ "': " ++ fault.message
  | invalidConfig path reason =>
    "Invalid configuration" ++ ((path.map fun path => " in '" ++ path.text ++ "'").getD "") ++
      ": " ++ reason
  | watching reason => "Hot-reload error: " ++ reason

end Failure

end ClassStyle
