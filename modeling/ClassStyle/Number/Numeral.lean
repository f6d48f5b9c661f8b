import ClassStyle.Text.Ascii

/-!
# Numerals

A numeral is a sign, digits, a fraction and an exponent, each as it was written. Scanning takes
the longest numeral off the front of a text, and what it takes and leaves are the text.
-/

namespace ClassStyle

open Text

inductive Sign where
  | plus
  | minus
  deriving DecidableEq, Inhabited

namespace Sign

def char : Sign → Char
  | plus => '+'
  | minus => '-'

/-- The characters of a sign that may be missing. -/
def source : Option Sign → List Char
  | none => []
  | some sign => [sign.char]

def isMinus : Option Sign → Bool
  | some minus => true
  | _ => false

/-- Takes a sign off the front. -/
def scan : List Char → Option Sign × List Char
  | [] => (none, [])
  | c :: rest =>
    if c = '+' then (some plus, rest)
    else if c = '-' then (some minus, rest)
    else (none, c :: rest)

theorem source_scan_append (s : List Char) : source (scan s).1 ++ (scan s).2 = s := by
  cases s with
  | nil => rfl
  | cons c rest =>
    simp only [scan]
    split
    · next h => simp [source, char, h]
    · split
      · next h => simp [source, char, h]
      · rfl

end Sign

/-- A power of ten behind a numeral: `e` or `E`, perhaps a sign, and digits. -/
structure Exponent where
  marker : Char
  sign : Option Sign
  digits : List Char
  deriving DecidableEq, Inhabited

structure Numeral where
  sign : Option Sign
  whole : List Char
  /-- The digits behind the dot, if there is a dot. -/
  fraction : Option (List Char)
  exponent : Option Exponent
  deriving DecidableEq, Inhabited

namespace Exponent

def source : Option Exponent → List Char
  | none => []
  | some e => e.marker :: Sign.source e.sign ++ e.digits

def value (e : Exponent) : Int :=
  if Sign.isMinus e.sign then -(decimalValue e.digits : Int) else decimalValue e.digits

/-- Takes an exponent off the front, if at least one digit stands in it. -/
def scan : List Char → Option Exponent × List Char
  | [] => (none, [])
  | c :: rest =>
    let (sign, body) := Sign.scan rest
    let digits := body.takeWhile isDigit
    if (c = 'e' ∨ c = 'E') ∧ digits ≠ [] then
      (some { marker := c, sign, digits }, body.dropWhile isDigit)
    else (none, c :: rest)

theorem source_scan_append (s : List Char) : source (scan s).1 ++ (scan s).2 = s := by
  cases s with
  | nil => rfl
  | cons c rest =>
    simp only [scan]
    split
    · simp [source, Sign.source_scan_append, List.append_assoc]
    · simp [source]

end Exponent

namespace Numeral

def fractionSource : Option (List Char) → List Char
  | none => []
  | some digits => '.' :: digits

/-- The numeral as it was written. -/
def source (n : Numeral) : List Char :=
  Sign.source n.sign ++ n.whole ++ fractionSource n.fraction ++ Exponent.source n.exponent

/-- Takes a dot and the digits behind it off the front. A dot without digits counts only if it may
be bare. -/
def scanFraction (bareDot : Bool) : List Char → Option (List Char) × List Char
  | [] => (none, [])
  | c :: rest =>
    let digits := rest.takeWhile isDigit
    if c = '.' ∧ (digits ≠ [] ∨ bareDot = true) then (some digits, rest.dropWhile isDigit)
    else (none, c :: rest)

theorem scanFraction_append (bareDot : Bool) (s : List Char) :
    fractionSource (scanFraction bareDot s).1 ++ (scanFraction bareDot s).2 = s := by
  cases s with
  | nil => rfl
  | cons c rest =>
    simp only [scanFraction]
    split
    · next h => simp [fractionSource, h.1]
    · rfl

/-- Takes the longest numeral off the front. With `bareDot`, digits may end in a dot. -/
def scan (bareDot : Bool) (s : List Char) : Option (Numeral × List Char) :=
  let (sign, body) := Sign.scan s
  let whole := body.takeWhile isDigit
  let (fraction, rest) := scanFraction (bareDot && !whole.isEmpty) (body.dropWhile isDigit)
  if whole = [] ∧ fraction = none then none
  else
    let (exponent, rest) := Exponent.scan rest
    some ({ sign, whole, fraction, exponent }, rest)

theorem source_append_of_scan {bareDot : Bool} {s rest : List Char} {n : Numeral}
    (h : scan bareDot s = some (n, rest)) : n.source ++ rest = s := by
  simp only [scan] at h
  split at h
  · cases h
  · simp only [Option.some.injEq, Prod.mk.injEq] at h
    obtain ⟨rfl, rfl⟩ := h
    simp only [source, List.append_assoc, Exponent.source_scan_append, scanFraction_append,
      List.takeWhile_append_dropWhile, Sign.source_scan_append]

/-- No fraction and no exponent are written. -/
def isInteger (n : Numeral) : Bool := n.fraction.isNone && n.exponent.isNone

/-- The value of a numeral that is an integer. -/
def integerValue (n : Numeral) : Int :=
  if Sign.isMinus n.sign then -(decimalValue n.whole : Int) else decimalValue n.whole

def fractionDigits (n : Numeral) : List Char := n.fraction.getD []

end Numeral

end ClassStyle
