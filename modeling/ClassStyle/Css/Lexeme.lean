import ClassStyle.Css.Name
import ClassStyle.Css.Token

/-!
# From text to tokens

A text is cut into lexemes from left to right. Each lexeme takes at least one character, and the
sources of all lexemes one behind the other are the text (`source_lexemes`).
-/

namespace ClassStyle.Css

open Text

/-! ## Extents

How far a token reaches that starts with a quote, a comment mark or `url(`. Where an escape is
skipped, the first argument counts the characters still to skip. -/

/-- The length of the rest of a comment, behind its opening mark. Without an end it takes all. -/
def commentLength : List Char → Nat
  | [] => 0
  | [_] => 1
  | c :: d :: rest => if c = '*' ∧ d = '/' then 2 else commentLength (d :: rest) + 1

/-- The length of what a backslash escapes inside a string: a newline, or as in a name. -/
def stringEscapeLength (s : List Char) : Nat :=
  if startsWithNewline s then spaceLength s else (escape s).2

/-- The length of the rest of a string. It ends with its quote or before a newline. -/
def stringLength (quote : Char) : Nat → List Char → Nat
  | _, [] => 0
  | skip + 1, _ :: rest => stringLength quote skip rest + 1
  | 0, c :: rest =>
    if c = quote then 1
    else if isNewline c then 0
    else if c = '\\' then stringLength quote (stringEscapeLength rest) rest + 1
    else stringLength quote 0 rest + 1

/-- The length of the rest of a malformed address, through its closing parenthesis. -/
def badUrlLength : Nat → List Char → Nat
  | _, [] => 0
  | skip + 1, _ :: rest => badUrlLength skip rest + 1
  | 0, c :: rest =>
    if c = ')' then 1
    else if c = '\\' ∧ (rest.head? = some ')' ∨ rest.head? = some '\\') then
      badUrlLength 1 rest + 1
    else badUrlLength 0 rest + 1

/-- The length of what follows a blank in an address: blanks and the closing parenthesis. -/
def urlEndLength : List Char → Nat
  | [] => 0
  | c :: rest =>
    if c = ')' then 1
    else if isSpace c then urlEndLength rest + 1
    else badUrlLength 0 rest + 1

/-- A character that makes an address malformed. -/
def breaksUrl (c : Char) : Bool :=
  c = '"' || c = '\'' || c = '(' || c.toNat = 0x7F || c.toNat = 0x0B ||
    (0x01 ≤ c.toNat && c.toNat ≤ 0x08) || (0x0E ≤ c.toNat && c.toNat ≤ 0x1F)

/-- The length of an address from its first character on. -/
def urlLength : Nat → List Char → Nat
  | _, [] => 0
  | skip + 1, _ :: rest => urlLength skip rest + 1
  | 0, c :: rest =>
    if c = ')' then 1
    else if isSpace c then urlEndLength rest + 1
    else if breaksUrl c then badUrlLength 0 rest + 1
    else if c = '\\' then
      if startsWithNewline rest then badUrlLength 0 rest + 1
      else urlLength (escape rest).2 rest + 1
    else urlLength 0 rest + 1

/-- The length of what follows `url(`, unless that is a quoted string. -/
def unquotedUrlLength? (s : List Char) : Option Nat :=
  let blanks := (s.takeWhile isSpace).length
  let address := s.drop blanks
  if address.head? = some '"' ∨ address.head? = some '\'' then none
  else some (blanks + urlLength 0 address)

/-! ## One token -/

def startsWithDigit (s : List Char) : Bool := s.head?.any isDigit

/-- Digits follow, or a dot and digits. -/
def startsMagnitude (s : List Char) : Bool :=
  startsWithDigit s || (s.head? = some '.' && startsWithDigit s.tail)

/-- The token of a text that starts with a number, and the length of its source. -/
def numericToken (s : List Char) : Token × Nat :=
  match Numeral.scan false s with
  | none => (.mark, 1)
  | some (n, rest) =>
    let length := n.source.length
    if rest.head? = some '%' then (.percentage n, length + 1)
    else if startsName rest then
      let (unit, unitLength) := readName rest
      (.dimension n unit, length + unitLength)
    else (.number n, length)

/-- The token of a text that starts with a name, and the length of its source. -/
def nameToken (s : List Char) : Token × Nat :=
  let (name, length) := readName s
  let rest := s.drop length
  if rest.head? = some '(' then
    if lowerString name = "url" then
      match unquotedUrlLength? rest.tail with
      | some urlLength => (.url, length + 1 + urlLength)
      | none => (.function name, length + 1)
    else (.function name, length + 1)
  else (.ident name, length)

/-- A mark of two characters if an equals sign follows, else the character alone. -/
def matchToken (c : Char) (rest : List Char) : Token × Nat :=
  if rest.head? = some '=' then (.mark, 2) else (.delimiter c, 1)

/-- The token at the front of a text, and the length of its source. -/
def tokenAt (c : Char) (rest : List Char) : Token × Nat :=
  if isSpace c then (.whitespace, (rest.takeWhile isSpace).length + 1)
  else if c = '"' ∨ c = '\'' then (.string, stringLength c 0 rest + 1)
  else if c = '/' ∧ rest.head? = some '*' then (.comment, commentLength rest.tail + 2)
  else if c = '(' then (.opening .round, 1)
  else if c = '[' then (.opening .square, 1)
  else if c = '{' then (.opening .curly, 1)
  else if c = ')' then (.closing .round, 1)
  else if c = ']' then (.closing .square, 1)
  else if c = '}' then (.closing .curly, 1)
  else if c = ',' then (.comma, 1)
  else if c = ':' then (.colon, 1)
  else if c = ';' then (.semicolon, 1)
  else if c = '#' then
    if startsName rest || startsWithDigit rest || rest.head? = some '-' then
      let (name, length) := readName rest
      (.hash name, length + 1)
    else (.delimiter c, 1)
  else if c = '@' then
    if startsName rest then
      let (name, length) := readName rest
      (.atKeyword name, length + 1)
    else (.delimiter c, 1)
  else if c = '$' ∨ c = '*' ∨ c = '^' ∨ c = '|' ∨ c = '~' then matchToken c rest
  else if c = '<' ∧ rest.take 3 = ['!', '-', '-'] then (.mark, 4)
  else if isDigit c || startsMagnitude (if c = '+' ∨ c = '-' then rest else c :: rest) then
    numericToken (c :: rest)
  else if c = '-' ∧ rest.take 2 = ['-', '>'] then (.mark, 3)
  else if startsName (c :: rest) then nameToken (c :: rest)
  else (.delimiter c, 1)

/-! ## All tokens -/

/-- The lexeme at the front of a text. It takes the first character at least. -/
def lexemeAt (c : Char) (rest : List Char) : Lexeme :=
  let (token, length) := tokenAt c rest
  { token, source := c :: rest.take (length - 1) }

/-- The lexemes of a text after `skip` characters that belong to the lexeme before. -/
def lexemesAfter : Nat → List Char → List Lexeme
  | _, [] => []
  | skip + 1, _ :: rest => lexemesAfter skip rest
  | 0, c :: rest =>
    let lexeme := lexemeAt c rest
    lexeme :: lexemesAfter (lexeme.source.length - 1) rest

/-- The lexemes of a text, in order. -/
def lexemes (text : List Char) : List Lexeme := lexemesAfter 0 text

theorem lexemesAfter_eq_drop (skip : Nat) (text : List Char) :
    lexemesAfter skip text = lexemes (text.drop skip) := by
  induction skip generalizing text with
  | zero => rfl
  | succ skip ih =>
    cases text with
    | nil => rfl
    | cons c rest => simpa [lexemesAfter] using ih rest

/-- The lexeme at the front and the lexemes of what it leaves. -/
theorem lexemes_cons (c : Char) (rest : List Char) :
    lexemes (c :: rest) =
      lexemeAt c rest :: lexemes (rest.drop ((lexemeAt c rest).source.length - 1)) := by
  rw [lexemes, lexemesAfter, lexemesAfter_eq_drop]

theorem lexemeAt_source_append (c : Char) (rest : List Char) :
    (lexemeAt c rest).source ++ rest.drop ((lexemeAt c rest).source.length - 1) = c :: rest := by
  simp [lexemeAt, List.length_take]
  rcases Nat.le_total ((tokenAt c rest).2 - 1) rest.length with h | h
  · rw [Nat.min_eq_left h, List.take_append_drop]
  · rw [Nat.min_eq_right h, List.take_of_length_le h, List.drop_length, List.append_nil]

/-- Nothing of a text is lost between its tokens. -/
theorem source_lexemes (text : List Char) : (lexemes text).flatMap Lexeme.source = text := by
  match text with
  | [] => rfl
  | c :: rest =>
    rw [lexemes_cons, List.flatMap_cons, source_lexemes, lexemeAt_source_append]
termination_by text.length

end ClassStyle.Css
