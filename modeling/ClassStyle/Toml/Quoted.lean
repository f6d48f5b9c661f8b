import ClassStyle.Text.Ascii
import ClassStyle.Toml.Layout

/-!
# Quoted text in a TOML document

Text stands between double quotes with escapes, or between single quotes as it is. Three quotes
of either kind open a text of several lines, whose line ends all count as `\n`.
-/

namespace ClassStyle.Toml

open Text

/-! ## Escapes -/

/-- The character of a code point in base 16. -/
def ofHexDigits? (digits : List Char) : Option Char :=
  match digits.mapM hexDigit? with
  | none => none
  | some values =>
    let code := values.foldl (fun code digit => 16 * code + digit) 0
    if code.isValidChar then some (Char.ofNat code) else none

/-- The character of an escape and the number of characters that it takes, without the
backslash. -/
def escape? : List Char → Option (Char × Nat)
  | 'b' :: _ => some ('\x08', 1)
  | 't' :: _ => some ('\t', 1)
  | 'n' :: _ => some ('\n', 1)
  | 'f' :: _ => some ('\x0c', 1)
  | 'r' :: _ => some ('\r', 1)
  | '"' :: _ => some ('"', 1)
  | '\\' :: _ => some ('\\', 1)
  | 'u' :: rest =>
    if 4 ≤ rest.length then (ofHexDigits? (rest.take 4)).map fun c => (c, 5) else none
  | 'U' :: rest =>
    if 8 ≤ rest.length then (ofHexDigits? (rest.take 8)).map fun c => (c, 9) else none
  | _ => none

/-- The number of spaces and line ends behind a backslash at the end of a line. -/
def continuation? (text : List Char) : Option Nat :=
  (lineEnd? (skipSpaces text)).map fun rest => text.length - (skipBreaks rest).length

/-! ## One line -/

/-- Puts a character before a text that was read. -/
def before (c : Char) : Option (List Char × List Char) → Option (List Char × List Char) :=
  Option.map fun read => (c :: read.1, read.2)

/-- The rest of a text in double quotes. Skips some characters first. -/
def doubleQuoted : Nat → Scan (List Char)
  | _, [] => none
  | skip + 1, _ :: rest => doubleQuoted skip rest
  | 0, c :: rest =>
    if c = '"' then some ([], rest)
    else if c = '\\' then
      match escape? rest with
      | some (escaped, length) => before escaped (doubleQuoted length rest)
      | none => none
    else if isShown c then before c (doubleQuoted 0 rest)
    else none

/-- The rest of a text in single quotes. -/
def singleQuoted : Scan (List Char)
  | [] => none
  | c :: rest =>
    if c = '\'' then some ([], rest)
    else if isShown c then before c (singleQuoted rest)
    else none

/-! ## Several lines -/

/-- What three quotes end. One or two more quotes right behind them belong to the text. -/
def closed (quote : Char) : List Char → List Char × List Char
  | c :: d :: rest =>
    if c = quote then if d = quote then ([c, d], rest) else ([c], d :: rest)
    else ([], c :: d :: rest)
  | [c] => if c = quote then ([c], []) else ([], [c])
  | [] => ([], [])

/-- The rest of a text between three quotes. `escapes` tells whether a backslash escapes. Skips
some characters first. -/
def tripleQuoted (quote : Char) (escapes : Bool) : Nat → Scan (List Char)
  | _, [] => none
  | skip + 1, _ :: rest => tripleQuoted quote escapes skip rest
  | 0, c :: rest =>
    if c = quote && rest.take 2 = [quote, quote] then some (closed quote (rest.drop 2))
    else if escapes && c = '\\' then
      match continuation? rest with
      | some length => tripleQuoted quote escapes length rest
      | none =>
        match escape? rest with
        | some (escaped, length) => before escaped (tripleQuoted quote escapes length rest)
        | none => none
    else if c = '\n' then before c (tripleQuoted quote escapes 0 rest)
    else if c = '\r' && rest.head? = some '\n' then
      before '\n' (tripleQuoted quote escapes 1 rest)
    else if isShown c then before c (tripleQuoted quote escapes 0 rest)
    else none

/-- A line end right behind the opening quotes does not count. -/
def skipFirstLineEnd (text : List Char) : List Char := (lineEnd? text).getD text

/-- A text in quotes of any kind. -/
def quoted : Scan (List Char)
  | '"' :: '"' :: '"' :: rest => tripleQuoted '"' true 0 (skipFirstLineEnd rest)
  | '"' :: rest => doubleQuoted 0 rest
  | '\'' :: '\'' :: '\'' :: rest => tripleQuoted '\'' false 0 (skipFirstLineEnd rest)
  | '\'' :: rest => singleQuoted rest
  | _ => none

end ClassStyle.Toml
