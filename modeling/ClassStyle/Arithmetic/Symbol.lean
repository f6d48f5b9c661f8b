import ClassStyle.Text.Ascii

/-!
# The symbols of an arithmetic text

A text is cut into numerals (runs of digits and dots), operators, parentheses and other
characters. ASCII blanks separate symbols and are dropped.
-/

namespace ClassStyle.Arithmetic

open Text

inductive Symbol where
  | numeral (text : List Char)
  | plus
  | minus
  | times
  | slash
  | opening
  | closing
  | other (c : Char)
  deriving DecidableEq, Inhabited

/-- Space, tab, line feed, form feed and carriage return. -/
def isSpace (c : Char) : Bool :=
  c = ' ' || c = '\t' || c = '\n' || c = '\x0c' || c = '\r'

def isNumeralChar (c : Char) : Bool := isDigit c || c = '.'

/-- The symbol that a character is by itself, if it is no part of a numeral. -/
def Symbol.ofChar (c : Char) : Symbol :=
  if c = '+' then plus
  else if c = '-' then minus
  else if c = '*' then times
  else if c = '/' then slash
  else if c = '(' then opening
  else if c = ')' then closing
  else other c

/-- The symbols of a text, in order. -/
def symbols : List Char → List Symbol
  | [] => []
  | c :: cs =>
    if isSpace c then symbols cs
    else if isNumeralChar c then
      match cs, symbols cs with
      | d :: _, .numeral text :: rest =>
        if isNumeralChar d then .numeral (c :: text) :: rest
        else .numeral [c] :: .numeral text :: rest
      | _, rest => .numeral [c] :: rest
    else Symbol.ofChar c :: symbols cs

end ClassStyle.Arithmetic
