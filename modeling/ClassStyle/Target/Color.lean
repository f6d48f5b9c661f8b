import ClassStyle.Number.Decimal
import ClassStyle.Number.Exact
import ClassStyle.Text.Blank

/-!
# Colors

A color has three channels of eight bits. It is read from hexadecimal digits (`#rgb` or `#rrggbb`)
or from a list of channels (`r,g,b`, perhaps inside `rgb(…)`).
-/

namespace ClassStyle

open Text

structure Color where
  r : UInt8
  g : UInt8
  b : UInt8
  deriving DecidableEq, Inhabited

namespace Color

def text (c : Color) : String := s!"Color3.fromRGB({c.r.toNat}, {c.g.toNat}, {c.b.toNat})"

/-! ## Hexadecimal digits -/

/-- One digit stands for itself twice. -/
def doubledDigit? (c : Char) : Option UInt8 := (hexDigit? c).map fun d => .ofNat (17 * d)

/-- Two digits, or a plus sign and one digit. -/
def digitPair? (first second : Char) : Option UInt8 :=
  match hexDigit? second with
  | none => none
  | some low =>
    if first = '+' then some (.ofNat low)
    else (hexDigit? first).map fun high => .ofNat (16 * high + low)

/-- Reads `#` and three digits or three pairs. -/
def ofHex? (s : List Char) : Option Color :=
  match trim s with
  | ['#', r, g, b] => do
    some ⟨← doubledDigit? r, ← doubledDigit? g, ← doubledDigit? b⟩
  | ['#', r₁, r₂, g₁, g₂, b₁, b₂] => do
    some ⟨← digitPair? r₁ r₂, ← digitPair? g₁ g₂, ← digitPair? b₁ b₂⟩
  | _ => none

/-! ## Lists of channels -/

/-- Takes a prefix off the front, if it is there. -/
def dropFront? : List Char → List Char → Option (List Char)
  | [], s => some s
  | p :: ps, c :: cs => if p = c then dropFront? ps cs else none
  | _ :: _, [] => none

/-- Takes a closing parenthesis off the end, if it is there. -/
def dropClosing? (s : List Char) : Option (List Char) :=
  if s.getLast? = some ')' then some s.dropLast else none

/-- What is inside `rgb(…)` or `rgba(…)`, and a text without such a wrapper as it is. -/
def unwrap (s : List Char) : List Char :=
  (((dropFront? ['r', 'g', 'b', '('] s).orElse
    fun _ => dropFront? ['r', 'g', 'b', 'a', '('] s).bind dropClosing?).getD s

/-- A number as a channel. -/
def channel? (s : List Char) : Option UInt8 := (readFloat? s).map nearestByte

/-- Reads at least three channels. What follows the third is not looked at. -/
def ofChannels? (s : List Char) : Option Color :=
  match pieces isListSeparator (unwrap (trim s)) with
  | r :: g :: b :: _ => do some ⟨← channel? r, ← channel? g, ← channel? b⟩
  | _ => none

/-- Reads either notation. A text with `#` in it is hexadecimal. -/
def read? (s : List Char) : Option Color :=
  if s.contains '#' then ofHex? s else ofChannels? s

end Color

end ClassStyle
