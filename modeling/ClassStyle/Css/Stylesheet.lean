import ClassStyle.Css.Block
import ClassStyle.Css.Selector
import ClassStyle.Sheet

/-!
# Stylesheets

A stylesheet is a list of at-rules, which say nothing here, and of rules: selectors with a block.
Reading never fails. What cannot be used is left out with a notice.
-/

namespace ClassStyle.Css

/-! ## Constructs -/

inductive Construct where
  | atRule (name : String)
  | rule (selectors body : List Component)
  /-- Selectors without a block, at the end of the text. -/
  | unfinished (selectors : List Component)
  deriving Inhabited

/-- What the next component of a stylesheet belongs to. -/
inductive ConstructState where
  | between
  | inAtRule
  /-- In the selectors of a rule. Holds the components read, the last one first. -/
  | inSelectors (read : List Component)
  deriving Inhabited

/-- The constructs of the rest of a stylesheet. An at-rule ends with a semicolon or a block in
curly brackets, a rule with such a block alone. -/
def constructsFrom : ConstructState → List Component → List Construct
  | .between, [] => []
  | .inAtRule, [] => []
  | .inSelectors read, [] => [.unfinished read.reverse]
  | .between, c :: rest =>
    if c.isSeparator then constructsFrom .between rest
    else match c.atKeyword? with
      | some name => .atRule name :: constructsFrom .inAtRule rest
      | none =>
        match c.curlyBody? with
        | some body => .rule [] body :: constructsFrom .between rest
        | none => constructsFrom (.inSelectors [c]) rest
  | .inAtRule, c :: rest =>
    if c.isLeaf .semicolon || c.curlyBody?.isSome then constructsFrom .between rest
    else constructsFrom .inAtRule rest
  | .inSelectors read, c :: rest =>
    match c.curlyBody? with
    | some body => .rule read.reverse body :: constructsFrom .between rest
    | none => constructsFrom (.inSelectors (c :: read)) rest

def constructs (components : List Component) : List Construct :=
  constructsFrom .between components

/-- A notice for each selector that is no class. -/
def selectorNotices (selectors : List Component) : List Notice :=
  List.replicate (droppedCount selectors) .droppedSelector

/-- The rules that a construct gives to classes, and what was noticed in reading it. -/
def Construct.read : Construct → List (String × Rule) × List Notice
  | atRule name => ([], [.skippedAtRule name])
  | unfinished selectors => ([], selectorNotices selectors ++ [.skippedRule])
  | rule selectors body =>
    match selectedClasses selectors with
    | [] => ([], selectorNotices selectors ++ [.skippedUnclassedRule])
    | classes =>
      let (shared, notices) := readBlock body
      (classes.map fun name => (name, shared), selectorNotices selectors ++ notices)

/-! ## Sheets -/

/-- Adds rules one after another. -/
def addRules (sheet : Sheet) (rules : List (String × Rule)) : Sheet :=
  rules.foldl (fun sheet rule => sheet.insert rule.1 rule.2) sheet

/-- The sheet of a text. -/
def readSheet (text : List Char) : Logged Sheet :=
  let results := (constructs (components text)).map Construct.read
  { value := addRules .empty (results.flatMap Prod.fst)
    records := (results.flatMap Prod.snd).map Notice.record }

end ClassStyle.Css

namespace ClassStyle

/-- The sheet of a stylesheet's text. -/
def Sheet.ofCss (css : String) : Logged Sheet := Css.readSheet css.toList

end ClassStyle
