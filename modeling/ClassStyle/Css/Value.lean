import ClassStyle.Collection.SortedMap
import ClassStyle.Css.Component
import ClassStyle.Css.Notice
import ClassStyle.Css.Number
import ClassStyle.Number.Decimal
import ClassStyle.Text.Blank

/-!
# Values of declarations

A value is written anew from its components: numbers apart from their units, colors as lists of
channels, and references to custom properties replaced by the values of those. What is written for
one component behind another is what is written for each, one behind the other.

A reference opens its property until the value of that is written. A property that is open already
is not opened again.
-/

namespace ClassStyle.Css

open Text

-- Sums start with the zero of the core library, also where an algebra library is in scope.
attribute [local instance (high)] Zero.ofOfNat0

/-- What is written for a part of a value. -/
structure Written where
  pieces : List (List Char)
  /-- The alpha channel of the last color that has one. -/
  opacity : Option (List Char)
  notices : List Notice
  deriving DecidableEq, Inhabited

namespace Written

def empty : Written := ⟨[], none, []⟩

def append (a b : Written) : Written :=
  ⟨a.pieces ++ b.pieces, b.opacity <|> a.opacity, a.notices ++ b.notices⟩

instance : Append Written := ⟨append⟩

def piece (text : List Char) : Written := ⟨[text], none, []⟩

def notice (n : Notice) : Written := ⟨[], none, [n]⟩

/-- The pieces with one space between them. -/
def text (w : Written) : List Char := [' '].intercalate w.pieces

@[simp] theorem empty_append (a : Written) : empty ++ a = a := by
  show append empty a = a
  cases a; simp [append, empty]

@[simp] theorem append_empty (a : Written) : a ++ empty = a := by
  show append a empty = a
  cases a; simp [append, empty]

theorem append_assoc (a b c : Written) : a ++ b ++ c = a ++ (b ++ c) := by
  show append (append a b) c = append a (append b c)
  cases a; cases b; rcases c with ⟨_, _ | _, _⟩ <;> simp [append]

end Written

/-! ## Colors -/

/-- The values of the channels of a color, and what was noticed on the way. -/
structure Channels where
  texts : List (List Char)
  notices : List Notice
  deriving DecidableEq, Inhabited

namespace Channels

def add (channels : Channels) (text : List Char) : Channels :=
  { channels with texts := channels.texts ++ [text] }

/-- A fraction is one of 255 for a color, and is kept as it is from the fourth channel on. -/
def scaled (channels : Channels) (fraction : Float32) : Float32 :=
  if 3 ≤ channels.texts.length then fraction else fraction * 255

/-- Adds the numbers of a list of pieces. A percent sign may follow a number. -/
def addPieces (channels : Channels) : List (List Char) → Channels
  | [] => channels
  | [piece] =>
    match readSingle? piece with
    | none => channels
    | some x => channels.add (writeSingle x)
  | piece :: next :: rest =>
    match readSingle? piece with
    | none => channels.addPieces (next :: rest)
    | some x =>
      if next = ['%'] then
        (channels.add (writeSingle (channels.scaled (x / 100)))).addPieces rest
      else (channels.add (writeSingle x)).addPieces (next :: rest)

/-- Adds what is written for a reference among the arguments. -/
def addWritten (channels : Channels) (written : Written) : Channels :=
  let added := channels.addPieces (pieces isListSeparator written.text)
  { added with notices := added.notices ++ written.notices }

/-- What is written for a color: its first three channels. A fourth one is its opacity. -/
def written (channels : Channels) : Written :=
  match channels.texts with
  | r :: g :: b :: rest =>
    ⟨[[','].intercalate [r, g, b]], rest.head?, channels.notices⟩
  | few => ⟨[], none, channels.notices ++ [.ignoredChannels few.length]⟩

end Channels

/-- Two names are the same but for the case of their letters. -/
def isNamed (keyword : String) (name : String) : Bool := lowerString name = keyword

/-- Adds the channels that one argument of a color gives. `reference` writes a reference. -/
def addArgument (reference : List Component → Written) (channels : Channels) :
    Component → Channels
  | .leaf { token := .number n, .. } => channels.add (numberText n)
  | .leaf { token := .percentage n, .. } =>
    channels.add (writeSingle (channels.scaled (percentFraction n)))
  | .block { token := .function name, .. } body _ =>
    if isNamed "var" name then channels.addWritten (reference body) else channels
  | _ => channels

/-- What is written for a color with these arguments. -/
def writeColor (reference : List Component → Written) (arguments : List Component) : Written :=
  (arguments.foldl (addArgument reference) ⟨[], []⟩).written

/-! ## Components -/

/-- What is written for a token by itself. -/
def writeToken : Token → Written
  | .dimension n unit => .piece (numberText n ++ ' ' :: lower unit.toList)
  | .percentage n => .piece (percentText n ++ [' ', '%'])
  | .number n => .piece (numberText n)
  | .ident name => .piece name.toList
  | .hash name => .piece ('#' :: name.toList)
  | .comma => .piece [',']
  | .delimiter c =>
    if c = '/' ∨ c = '*' ∨ c = '+' ∨ c = '-' then .piece [c] else .empty
  | _ => .empty

/-- What is written for a component. Of blocks, only colors and references are looked into. -/
def writeComponent (reference : List Component → Written) : Component → Written
  | .leaf lexeme => writeToken lexeme.token
  | .block { token := .function name, .. } body _ =>
    if isNamed "rgb" name || isNamed "rgba" name then writeColor reference body
    else if isNamed "var" name then reference body
    else .notice (.ignoredFunction (lowerString name))
  | .block .. => .empty

def writeComponents (reference : List Component → Written) : List Component → Written
  | [] => .empty
  | c :: rest => writeComponent reference c ++ writeComponents reference rest

/-- The components before an exclamation mark, behind which nothing counts. -/
def beforeBang (components : List Component) : List Component :=
  components.takeWhile fun c => !c.isLeaf (.delimiter '!')

/-! ## References -/

/-- The text behind the comma of a reference, if a comma follows the first argument. -/
def fallback? (arguments : List Component) : Option (List Char) :=
  match arguments.dropWhile Component.isSeparator with
  | [] => none
  | _ :: rest =>
    match rest.dropWhile Component.isSeparator with
    | [] => none
    | c :: rest => if c.isLeaf .comma then some (trim (Component.sourceAll rest)) else none

/-- The name that a reference gives, if its first argument is a name. -/
def referenceName? (arguments : List Component) : Option String :=
  (arguments.dropWhile Component.isSeparator).head?.bind Component.ident?

/-- The value of a custom property, if it is defined and not blank. -/
def definition? (custom : SortedMap String) (name : String) : Option (List Char) :=
  (custom.get? name).bind fun value =>
    let value := trim value.toList
    if value = [] then none else some value

/-- What is written for a reference. `write` writes a text with some properties open. -/
def writeReference (custom : SortedMap String) (write : List String → List Char → Written)
    (opened : List String) (arguments : List Component) : Written :=
  match referenceName? arguments with
  | none => .empty
  | some name =>
    if opened.contains name then .notice (.cyclicReference name)
    else match definition? custom name, fallback? arguments with
      | some value, _ => write (name :: opened) value
      | none, some (c :: text) => write opened (c :: text)
      | none, _ => .notice (.unresolvedReference name)

/-- What is written for a text, going at most `depth` texts deep. -/
def writeText (custom : SortedMap String) : Nat → List String → List Char → Written
  | 0, _, _ => .empty
  | depth + 1, opened, text =>
    writeComponents (writeReference custom (writeText custom depth) opened)
      (beforeBang (components text))

/-- How deep texts can lie in each other: each property is opened once at most, and a fallback is
shorter than the text that it stands in. -/
def depthBound (custom : SortedMap String) (text : List Char) : Nat :=
  text.length + 1 + (custom.entries.map fun entry => entry.2.toList.length + 1).sum

/-- What is written for the text of a value under the custom properties of its block. -/
def writeValue (custom : SortedMap String) (text : List Char) : Written :=
  writeText custom (depthBound custom text) [] text

end ClassStyle.Css
