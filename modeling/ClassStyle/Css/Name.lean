import ClassStyle.Text.Ascii

/-!
# Names and escapes

A name is a run of letters, digits, `-`, `_`, characters beyond ASCII and escapes. A backslash
escapes the character behind it, or the character whose number follows in base 16. What stands for
no character is read as the replacement character.
-/

namespace ClassStyle.Css

open Text

-- Sums start with the zero of the core library, also where an algebra library is in scope.
attribute [local instance (high)] Zero.ofOfNat0

/-- Stands in for what is no character. -/
def replacement : Char := '\ufffd'

def isNewline (c : Char) : Bool := c = '\n' || c = '\r' || c = '\x0c'

/-- Space, tab and the newlines. -/
def isSpace (c : Char) : Bool := c = ' ' || c = '\t' || isNewline c

def startsWithNewline (s : List Char) : Bool := s.head?.any isNewline

/-- The length of one blank at the front. A carriage return and a line feed are one. -/
def spaceLength : List Char → Nat
  | [] => 0
  | [c] => if isSpace c then 1 else 0
  | c :: d :: _ => if c = '\r' ∧ d = '\n' then 2 else if isSpace c then 1 else 0

/-! ## Escapes -/

/-- The character of a number. -/
def scalar (n : Nat) : Char :=
  if n = 0 ∨ ¬n.isValidChar then replacement else Char.ofNat n

def hexValue (digits : List Char) : Nat :=
  digits.foldl (fun value c => value * 16 + (hexDigit? c).getD 0) 0

/-- The character that is escaped by what follows a backslash, and the length of that. A number
has at most six digits and takes one blank behind it along. -/
def escape (s : List Char) : Char × Nat :=
  match s with
  | [] => (replacement, 0)
  | c :: _ =>
    let digits := (s.take 6).takeWhile isHexDigit
    if digits = [] then (if c = '\x00' then replacement else c, 1)
    else (scalar (hexValue digits), digits.length + spaceLength (s.drop digits.length))

/-! ## Names -/

/-- A character that starts a name by itself. -/
def isNameStart (c : Char) : Bool :=
  isLetter c || c = '_' || c = '\x00' || 0x80 ≤ c.toNat

def isNameChar (c : Char) : Bool := isNameStart c || isDigit c || c = '-'

/-- A name starts here. A backslash at the front has to escape something, but behind a `-` any
backslash will do: before a newline it ends the name, which is the `-` alone. -/
def startsName : List Char → Bool
  | [] => false
  | c :: rest =>
    if c = '-' then rest.head?.any fun d => isNameStart d || d = '-' || d = '\\'
    else isNameStart c || (c = '\\' && !startsWithNewline rest)

/-- The character of a name at the front, and the length of its source. -/
def nameChar? : List Char → Option (Char × Nat)
  | [] => none
  | c :: rest =>
    if c = '\\' then
      if startsWithNewline rest then none
      else
        let (d, length) := escape rest
        some (d, length + 1)
    else if isNameChar c then some (if c = '\x00' then replacement else c, 1)
    else none

/-- The characters of the name at the front with the lengths of their sources, after `skip` more
characters of the source. -/
def nameChars : Nat → List Char → List (Char × Nat)
  | _, [] => []
  | skip + 1, _ :: rest => nameChars skip rest
  | 0, c :: rest =>
    match nameChar? (c :: rest) with
    | none => []
    | some (d, length) => (d, length) :: nameChars (length - 1) rest

/-- The name at the front, and the length of its source. -/
def readName (s : List Char) : String × Nat :=
  let chars := nameChars 0 s
  (String.ofList (chars.map Prod.fst), (chars.map Prod.snd).sum)

end ClassStyle.Css
