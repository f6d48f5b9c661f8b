import ClassStyle.Css.Component

/-!
# Selectors

A rule belongs to the classes in its list of selectors. Of the selectors, only a single class
`.name` counts.
-/

namespace ClassStyle.Css

/-- The items of a list with commas between them. Commas inside blocks do not count. -/
def listItems : List Component → List (List Component)
  | [] => [[]]
  | c :: rest =>
    if c.isLeaf .comma then [] :: listItems rest
    else match listItems rest with
      | [] => [[c]]
      | first :: others => (c :: first) :: others

/-- The class that a selector is. Only comments may stand between the dot and the name. -/
def classSelector? (item : List Component) : Option String :=
  match item.dropWhile Component.isSeparator with
  | [] => none
  | dot :: rest =>
    if dot.isLeaf (.delimiter '.') then
      match rest.dropWhile fun c => c.isLeaf .comment with
      | [] => none
      | name :: rest => if rest.all Component.isSeparator then name.ident? else none
    else none

/-- The classes among the selectors of a list. -/
def selectedClasses (selectors : List Component) : List String :=
  (listItems selectors).filterMap classSelector?

/-- How many selectors of a list are no classes. -/
def droppedCount (selectors : List Component) : Nat :=
  ((listItems selectors).filter fun item => (classSelector? item).isNone).length

end ClassStyle.Css
