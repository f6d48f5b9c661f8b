/-!
# Blanks and pieces

Text is a list of characters. A blank is a character with the Unicode property White_Space
(Unicode 15.1, 25 characters). Texts are trimmed of blanks and cut into non-empty pieces.
-/

namespace ClassStyle.Text

/-- The code points of White_Space, as closed ranges in ascending order. -/
def blankRanges : List (Nat × Nat) :=
  [(0x09, 0x0D), (0x20, 0x20), (0x85, 0x85), (0xA0, 0xA0), (0x1680, 0x1680), (0x2000, 0x200A),
    (0x2028, 0x2029), (0x202F, 0x202F), (0x205F, 0x205F), (0x3000, 0x3000)]

def isBlank (c : Char) : Bool :=
  blankRanges.any fun range => range.1 ≤ c.toNat && c.toNat ≤ range.2

/-- Commas, slashes and blanks stand between the items of a list. -/
def isListSeparator (c : Char) : Bool := c = ',' || c = '/' || isBlank c

/-! ## Trimming -/

def trimStart (s : List Char) : List Char := s.dropWhile isBlank

def trimEnd (s : List Char) : List Char := (s.reverse.dropWhile isBlank).reverse

/-- Takes the blanks off both ends. -/
def trim (s : List Char) : List Char := trimEnd (trimStart s)

/-! ## Pieces -/

/-- The longest runs of characters that are not cut characters, in order. No piece is empty. -/
def pieces (cut : Char → Bool) : List Char → List (List Char)
  | [] => []
  | c :: cs =>
    if cut c then pieces cut cs
    else match cs, pieces cut cs with
      | d :: _, piece :: rest => if cut d then [c] :: piece :: rest else (c :: piece) :: rest
      | _, rest => [c] :: rest

/-- The pieces between blanks. -/
def words (s : List Char) : List (List Char) := pieces isBlank s

end ClassStyle.Text
