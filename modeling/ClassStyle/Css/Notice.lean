import ClassStyle.Log

/-!
# Notices of the reader

What the reader of stylesheets leaves out, and why. Nothing of it stops the reading.
-/

namespace ClassStyle.Css

inductive Notice where
  | skippedAtRule (name : String)
  /-- The text ends before the block of a rule. -/
  | skippedRule
  /-- None of the selectors of a rule is a class. -/
  | skippedUnclassedRule
  | droppedSelector
  /-- A declaration does not start with a name. -/
  | skippedDeclaration
  | missingColon (name : String)
  | emptyValue (name : String)
  | ignoredFunction (name : String)
  | ignoredChannels (count : Nat)
  | cyclicReference (name : String)
  | unresolvedReference (name : String)
  deriving DecidableEq, Inhabited

namespace Notice

def message : Notice → String
  | skippedAtRule name => s!"Skipping @{name} rule"
  | skippedRule => "Skipping rule"
  | skippedUnclassedRule => "Skipping rule without class selectors"
  | droppedSelector => "Dropping selector"
  | skippedDeclaration => "Skipping declaration"
  | missingColon name => "Expected ':' after '" ++ name ++ "'"
  | emptyValue name => "Dropping empty value for '" ++ name ++ "'"
  | ignoredFunction name => s!"Ignoring function {name}()"
  | ignoredChannels count => s!"rgb() with {count} channels ignored"
  | cyclicReference name => s!"Cyclic reference to {name}"
  | unresolvedReference name => s!"Unresolved variable {name}"

def record (notice : Notice) : Record where
  level := .debug
  area := .reading
  message := notice.message
  className := none

end Notice

end ClassStyle.Css
