import ClassStyle.Number.Decimal
import ClassStyle.Toml.Layout

/-!
# Numbers, truth values and dates in a TOML document

Each reader takes one kind off the front of a text. The values are of no use here, so only the
text behind them is given, but they have to be in range.
-/

namespace ClassStyle.Toml

open Text

-- Powers are those of the core library, also where an algebra library is in scope.
attribute [local instance (high)] instPowNat

/-- The text behind something at the front of a text. -/
abbrev Skip := List Char → Option (List Char)

/-- The text behind a word. -/
def skipWord : List Char → Skip
  | [], text => some text
  | _ :: _, [] => none
  | w :: word, c :: text => if w = c then skipWord word text else none

/-! ## Digits -/

/-- More digits, with single underscores between digits. -/
def moreDigits (accepts : Char → Bool) : List Char → List Char × List Char
  | [] => ([], [])
  | c :: rest =>
    if accepts c then
      let (digits, rest) := moreDigits accepts rest
      (c :: digits, rest)
    else if c = '_' && (rest.head?.any accepts) then moreDigits accepts rest
    else ([], c :: rest)

/-- Digits, at least one, with single underscores between them. -/
def groupedDigits (accepts : Char → Bool) : Scan (List Char)
  | c :: rest => if accepts c then some (moreDigits accepts (c :: rest)) else none
  | [] => none

def takeSign : List Char → List Char × List Char
  | '+' :: rest => (['+'], rest)
  | '-' :: rest => (['-'], rest)
  | text => ([], text)

/-- Decimal digits without a zero in front of others. -/
def plainDigits : Scan (List Char)
  | '0' :: rest => some (['0'], rest)
  | text => groupedDigits isDigit text

/-! ## Integers -/

/-- The bits of an integer besides its sign. -/
def integerBits : Nat := 63

/-- Digits of a base after a zero and a letter, without a sign. -/
def basedInteger? (base : Nat) (text : List Char) : Option (List Char) :=
  let accepts := fun c => (hexDigit? c).any (· < base)
  match groupedDigits accepts text with
  | none => none
  | some (digits, rest) =>
    let value := digits.foldl (fun value c => base * value + (hexDigit? c).getD 0) 0
    if value < 2 ^ integerBits then some rest else none

/-- An integer of 64 bits. -/
def integer? : Skip
  | '0' :: 'x' :: rest => basedInteger? 16 rest
  | '0' :: 'o' :: rest => basedInteger? 8 rest
  | '0' :: 'b' :: rest => basedInteger? 2 rest
  | text =>
    let (sign, text) := takeSign text
    match plainDigits text with
    | none => none
    | some (digits, rest) =>
      let bound := if sign = ['-'] then 2 ^ integerBits else 2 ^ integerBits - 1
      if decimalValue digits ≤ bound then some rest else none

/-! ## Floating-point numbers -/

def exponent? : Scan (List Char)
  | c :: rest =>
    if c = 'e' || c = 'E' then
      let (sign, rest) := takeSign rest
      (groupedDigits isDigit rest).map fun (digits, rest) => (c :: (sign ++ digits), rest)
    else none
  | [] => none

def fraction? : Scan (List Char)
  | '.' :: rest => (groupedDigits isDigit rest).map fun (digits, rest) => ('.' :: digits, rest)
  | _ => none

/-- A fraction, an exponent or both. -/
def fractionOrExponent? (text : List Char) : Option (List Char × List Char) :=
  match fraction? text with
  | none => exponent? text
  | some (fraction, rest) =>
    match exponent? rest with
    | none => some (fraction, rest)
    | some (exponent, rest) => some (fraction ++ exponent, rest)

/-- A number with a fraction or an exponent. One that is too large above has no value. -/
def decimalFloat? (text : List Char) : Option (List Char) :=
  let (sign, text) := takeSign text
  match plainDigits text with
  | none => none
  | some (whole, text) =>
    match fractionOrExponent? text with
    | none => none
    | some (tail, rest) =>
      match readFloat? (sign ++ whole ++ tail) with
      | some x => if x == 1.0 / 0.0 then none else some rest
      | none => none

def specialFloat? (text : List Char) : Option (List Char) :=
  let (_, text) := takeSign text
  (skipWord ['i', 'n', 'f'] text).or (skipWord ['n', 'a', 'n'] text)

/-! ## Dates and times -/

/-- A number of exactly so many digits. -/
def fixedDigits (count : Nat) (text : List Char) : Option (Nat × List Char) :=
  let digits := text.take count
  if digits.length = count ∧ digits.all isDigit then some (decimalValue digits, text.drop count)
  else none

/-- A number of two digits in a range. -/
def twoDigits (low high : Nat) (text : List Char) : Option (Nat × List Char) :=
  match fixedDigits 2 text with
  | some (n, rest) => if low ≤ n ∧ n ≤ high then some (n, rest) else none
  | none => none

def isLeapYear (year : Nat) : Bool := year % 4 = 0 && (year % 100 ≠ 0 || year % 400 = 0)

def daysInMonth (year month : Nat) : Nat :=
  if month = 2 then if isLeapYear year then 29 else 28
  else if month = 4 ∨ month = 6 ∨ month = 9 ∨ month = 11 then 30
  else 31

def date? (text : List Char) : Option (List Char) := do
  let (year, rest) ← fixedDigits 4 text
  let rest ← skipWord ['-'] rest
  let (month, rest) ← twoDigits 1 12 rest
  let rest ← skipWord ['-'] rest
  let (_, rest) ← twoDigits 1 (daysInMonth year month) rest
  some rest

/-- A fraction of a second, if there is one. -/
def secondFraction? : Skip
  | '.' :: c :: rest => if isDigit c then some (rest.dropWhile isDigit) else none
  | '.' :: [] => none
  | text => some text

def time? (text : List Char) : Option (List Char) := do
  let (_, rest) ← twoDigits 0 23 text
  let rest ← skipWord [':'] rest
  let (_, rest) ← twoDigits 0 59 rest
  let rest ← skipWord [':'] rest
  let (_, rest) ← twoDigits 0 60 rest
  secondFraction? rest

/-- The distance from universal time, if it is given. -/
def skipOffset (text : List Char) : List Char :=
  match text with
  | 'Z' :: rest => rest
  | 'z' :: rest => rest
  | _ =>
    let offset? : Option (List Char) := do
      let rest ← (skipWord ['+'] text).or (skipWord ['-'] text)
      let (_, rest) ← twoDigits 0 23 rest
      let rest ← skipWord [':'] rest
      let (_, rest) ← twoDigits 0 59 rest
      some rest
    offset?.getD text

/-- A time of day behind a date, if it is given. -/
def skipTimeOfDay : List Char → List Char
  | c :: rest =>
    if c = 'T' || c = 't' || c = ' ' then ((time? rest).map skipOffset).getD (c :: rest)
    else c :: rest
  | [] => []

/-- A date, a time of day, or both. -/
def dateTime? (text : List Char) : Option (List Char) :=
  match date? text with
  | some rest => some (skipTimeOfDay rest)
  | none => time? text

/-! ## Together -/

def truthValue? (text : List Char) : Option (List Char) :=
  (skipWord "true".toList text).or (skipWord "false".toList text)

/-- A number, a truth value, a date or a time. -/
def scalar? (text : List Char) : Option (List Char) :=
  (dateTime? text).or <| (decimalFloat? text).or <| (specialFloat? text).or <|
    (integer? text).or (truthValue? text)

end ClassStyle.Toml
