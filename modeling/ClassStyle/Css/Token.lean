import ClassStyle.Number.Numeral

/-!
# Tokens of a stylesheet

The kinds of token, with the data that rules and values use. Strings, addresses and the marks
that nothing here reads are kept without their contents.
-/

namespace ClassStyle.Css

inductive Bracket where
  | round
  | square
  | curly
  deriving DecidableEq, Inhabited

inductive Token where
  | whitespace
  | comment
  | ident (name : String)
  /-- A name with an opening parenthesis right behind it. -/
  | function (name : String)
  | atKeyword (name : String)
  | hash (name : String)
  | number (value : Numeral)
  | percentage (value : Numeral)
  | dimension (value : Numeral) (unit : String)
  | comma
  | colon
  | semicolon
  | opening (bracket : Bracket)
  | closing (bracket : Bracket)
  | delimiter (c : Char)
  | string
  | url
  /-- A mark of several characters: of an HTML comment, or of an attribute match. -/
  | mark
  deriving DecidableEq, Inhabited

/-- A token together with the text that it was read from. -/
structure Lexeme where
  token : Token
  source : List Char
  deriving DecidableEq, Inhabited

namespace Token

/-- The bracket that a token opens. -/
def opens? : Token → Option Bracket
  | opening bracket => some bracket
  | function _ => some .round
  | _ => none

/-- The bracket that a token closes. -/
def closes? : Token → Option Bracket
  | closing bracket => some bracket
  | _ => none

/-- Whitespace and comments separate tokens and mean nothing else. -/
def isSeparator : Token → Bool
  | whitespace | comment => true
  | _ => false

end Token

end ClassStyle.Css
