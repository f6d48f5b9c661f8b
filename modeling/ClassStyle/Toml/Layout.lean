/-!
# Layout of a TOML document

Spaces, line ends and comments. What is read is taken off the front of a list of characters.
-/

namespace ClassStyle.Toml

/-- A part of a document at the front of a text, and the text behind it. -/
abbrev Scan (α : Type) := List Char → Option (α × List Char)

def isSpace (c : Char) : Bool := c = ' ' || c = '\t'

/-- A tab, or any character that is no control character of ASCII. -/
def isShown (c : Char) : Bool := c = '\t' || (' ' ≤ c && c ≠ '\x7f')

def skipSpaces (text : List Char) : List Char := text.dropWhile isSpace

/-- The text behind the line end at its front. -/
def lineEnd? : List Char → Option (List Char)
  | '\n' :: rest => some rest
  | '\r' :: '\n' :: rest => some rest
  | _ => none

def skipComment : List Char → List Char
  | '#' :: rest => rest.dropWhile isShown
  | text => text

/-- The text behind a line of which only spaces and a comment may be left. -/
def restOfLine? (text : List Char) : Option (List Char) :=
  match skipComment (skipSpaces text) with
  | [] => some []
  | text => lineEnd? text

/-- Skips spaces and line ends. -/
def skipBreaks : List Char → List Char
  | '\r' :: '\n' :: rest => skipBreaks rest
  | c :: rest => if isSpace c || c = '\n' then skipBreaks rest else c :: rest
  | [] => []

/-- Skips spaces, line ends and comments. The flag tells that the text begins in a comment. -/
def skipLayoutFrom : Bool → List Char → List Char
  | _, [] => []
  | _, '\r' :: '\n' :: rest => skipLayoutFrom false rest
  | inComment, c :: rest =>
    if inComment && isShown c then skipLayoutFrom true rest
    else if isSpace c || c = '\n' then skipLayoutFrom false rest
    else if c = '#' then skipLayoutFrom true rest
    else c :: rest

def skipLayout (text : List Char) : List Char := skipLayoutFrom false text

end ClassStyle.Toml
