/-!
# Warnings

What a class asks for and the target cannot show. A warning never stops the work.
-/

namespace ClassStyle

/-- A feature of stylesheets that the target lacks. -/
inductive Feature where
  | borderStyle
  | borderSideWidth
  | flexWrap
  | flexReverse
  | baselineItems
  deriving DecidableEq, Inhabited

def Feature.message : Feature → String
  | borderStyle => "Border style not supported!"
  | borderSideWidth => "Individual border widths not supported! Use border-width instead."
  | flexWrap => "Flex wrap not supported!"
  | flexReverse => "Flex reverse not supported!"
  | baselineItems => "Items baseline not supported!"

inductive Warning where
  /-- A class asks for what the target lacks. -/
  | unsupported (className : String) (feature : Feature)
  /-- A stroke has a width or an opacity but no color. -/
  | strokeWithoutColor
  deriving DecidableEq, Inhabited

def Warning.message : Warning → String
  | unsupported className feature => feature.message ++ " (in ." ++ className ++ ")"
  | strokeWithoutColor => "Border stroke has no color; set border-color"

end ClassStyle
