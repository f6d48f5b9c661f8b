import ClassStyle.Toml.Quoted
import ClassStyle.Toml.Scalar
import ClassStyle.Toml.Table

/-!
# TOML documents

A document is read into the entries of its topmost table. One mistake anywhere makes the whole
document worthless.
-/

namespace ClassStyle.Toml

open Text

/-! ## Keys -/

/-- Keys with more parts, and values nested deeper, are refused. -/
def depthLimit : Nat := 79

def isBare (c : Char) : Bool := isLetter c || isDigit c || c = '-' || c = '_'

/-- One part of a key. -/
def simpleKey : Scan (List Char)
  | '"' :: rest => doubleQuoted 0 rest
  | '\'' :: rest => singleQuoted rest
  | text =>
    match text.takeWhile isBare with
    | [] => none
    | key => some (key, text.dropWhile isBare)

/-- The parts of a key with dots between them, with spaces around each. -/
def keyParts : Nat → Scan (List String)
  | 0, _ => none
  | bound + 1, text =>
    match simpleKey (skipSpaces text) with
    | none => none
    | some (part, rest) =>
      match skipSpaces rest with
      | '.' :: rest =>
        (keyParts bound rest).map fun (parts, rest) => (String.ofList part :: parts, rest)
      | rest => some ([String.ofList part], rest)

/-- A key: the parts before the last one, and the last one. -/
def key (text : List Char) : Option ((List String × String) × List Char) :=
  match keyParts depthLimit text with
  | none => none
  | some (parts, rest) => parts.getLast?.map fun last => ((parts.dropLast, last), rest)

/-! ## Values -/

/-- The rest of an array behind its bracket or a comma. A comma may stand behind the last value. -/
def arrayTail (value : Scan Value) : Nat → Scan Value
  | 0, _ => none
  | bound + 1, text =>
    match skipLayout text with
    | ']' :: rest => some (.array, rest)
    | text =>
      match value text with
      | none => none
      | some (_, rest) =>
        match skipLayout rest with
        | ',' :: rest => arrayTail value bound rest
        | ']' :: rest => some (.array, rest)
        | _ => none

/-- A key and its value inside braces. -/
def inlineEntry (value : Scan Value) (text : List Char) :
    Option ((List String × String × Value) × List Char) :=
  match key text with
  | some ((path, key), '=' :: rest) =>
    (value (skipSpaces rest)).map fun (v, rest) => ((path, key, v), skipSpaces rest)
  | _ => none

/-- The rest of a table in braces behind its brace or a comma, with the entries before it. -/
def inlineTail (value : Scan Value) : Nat → Entries → Scan Value
  | 0, _, _ => none
  | bound + 1, entries, text =>
    match inlineEntry value text with
    | none => none
    | some ((path, key, v), rest) =>
      match entries.add path key v .header with
      | none => none
      | some entries =>
        match rest with
        | ',' :: rest => inlineTail value bound entries rest
        | '\x7d' :: rest => some (.table, rest)
        | _ => none

/-- A value in which arrays and tables are nested so deep at most. -/
def value : Nat → Scan Value
  | depth, text =>
    match text with
    | [] => none
    | c :: rest =>
      if c = '"' || c = '\'' then
        (quoted text).map fun (read, rest) => (.string (String.ofList read), rest)
      else if c = '[' then
        match depth with
        | 0 => none
        | depth + 1 => arrayTail (value depth) (rest.length + 1) rest
      else if c = '\x7b' then
        match depth with
        | 0 => none
        | depth + 1 =>
          match skipSpaces rest with
          | '\x7d' :: rest => some (.table, rest)
          | rest => inlineTail (value depth) (rest.length + 1) [] rest
      else (scalar? text).map fun rest => (.scalar, rest)

/-! ## Lines -/

/-- The entries read so far and the header that they stand under. -/
structure Progress where
  root : Entries
  header : List String
  deriving Inhabited

/-- A line with a key and a value. -/
def entryLine (progress : Progress) (text : List Char) : Option (Progress × List Char) := do
  let ((path, key), rest) ← key text
  let rest ← skipWord ['='] rest
  let (v, rest) ← value depthLimit (skipSpaces rest)
  let rest ← restOfLine? rest
  let root ← progress.root.addUnder progress.header path key v
  some ({ progress with root }, rest)

/-- A line with the header of a table. -/
def tableLine (progress : Progress) (text : List Char) : Option (Progress × List Char) := do
  let ((path, key), rest) ← key text
  let rest ← skipWord [']'] rest
  let rest ← restOfLine? rest
  let root ← progress.root.openTable path key
  some (⟨root, path ++ [key]⟩, rest)

/-- A line with the header of one of several tables of a name. -/
def tablesLine (progress : Progress) (text : List Char) : Option (Progress × List Char) := do
  let ((path, key), rest) ← key text
  let rest ← skipWord [']', ']'] rest
  let rest ← restOfLine? rest
  let root ← progress.root.openTables path key
  some (⟨root, path ++ [key]⟩, rest)

def line (progress : Progress) (text : List Char) : Option (Progress × List Char) :=
  match text with
  | '#' :: _ => (restOfLine? text).map fun rest => (progress, rest)
  | '[' :: '[' :: rest => tablesLine progress rest
  | '[' :: rest => tableLine progress rest
  | _ =>
    match lineEnd? text with
    | some rest => some (progress, rest)
    | none => entryLine progress text

def lines : Nat → Progress → List Char → Option Entries
  | 0, _, _ => none
  | bound + 1, progress, text =>
    match skipSpaces text with
    | [] => some progress.root
    | text =>
      match line progress text with
      | none => none
      | some (progress, rest) => lines bound progress rest

/-- The entries of a document. A byte order mark at its front does not count. -/
def read? (document : List Char) : Option Entries :=
  let text := match document with
    | '\ufeff' :: rest => rest
    | text => text
  lines (text.length + 1) ⟨[], []⟩ text

end ClassStyle.Toml
