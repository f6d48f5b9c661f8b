/-!
# ASCII letters and digits

Case folding touches the letters A to Z alone, as the keywords of a stylesheet ask. Digits are
the ten of ASCII, and the sixteen of base 16 in either case.
-/

namespace ClassStyle.Text

def isDigit (c : Char) : Bool := '0' ≤ c && c ≤ '9'

def isLetter (c : Char) : Bool := ('a' ≤ c && c ≤ 'z') || ('A' ≤ c && c ≤ 'Z')

def digitValue (c : Char) : Nat := c.toNat - 48

/-- The value of a digit in base 16. -/
def hexDigit? (c : Char) : Option Nat :=
  if '0' ≤ c ∧ c ≤ '9' then some (c.toNat - 48)
  else if 'a' ≤ c ∧ c ≤ 'f' then some (c.toNat - 87)
  else if 'A' ≤ c ∧ c ≤ 'F' then some (c.toNat - 55)
  else none

def isHexDigit (c : Char) : Bool := (hexDigit? c).isSome

def lowerChar (c : Char) : Char :=
  if 'A' ≤ c ∧ c ≤ 'Z' then Char.ofNat (c.toNat + 32) else c

/-- Letters A to Z become a to z. All else stays. -/
def lower (s : List Char) : List Char := s.map lowerChar

def lowerString (s : String) : String := String.ofList (lower s.toList)

/-- The number that a list of decimal digits denotes, the most significant first. -/
def decimalValue (digits : List Char) : Nat :=
  digits.foldl (fun value c => value * 10 + digitValue c) 0

end ClassStyle.Text
