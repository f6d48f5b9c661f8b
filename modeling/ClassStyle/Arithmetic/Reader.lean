import ClassStyle.Arithmetic.Expression
import ClassStyle.Arithmetic.Symbol
import ClassStyle.Number.Decimal

/-!
# Reading and evaluating arithmetic

Products bind tighter than sums, and both take their operands from the left. Parentheses and
signs may be nested 64 deep, counting the number itself. A text has a value if it is one
expression and the value is finite.
-/

namespace ClassStyle.Arithmetic

/-- What a step of reading gives: the part read and the symbols left. -/
abbrev Partial (α : Type) := Option (α × List Symbol)

def sumOperation? : Symbol → Option Operation
  | .plus => some .add
  | .minus => some .subtract
  | _ => none

def productOperation? : Symbol → Option Operation
  | .times => some .multiply
  | .slash => some .divide
  | _ => none

/-- Goes on from a left operand while an operator comes next. The bound is a number of operators. -/
def chainFrom (operation? : Symbol → Option Operation)
    (operand : List Symbol → Partial Expression) :
    Nat → Expression → List Symbol → Partial Expression
  | bound + 1, left, symbol :: rest =>
    match operation? symbol with
    | none => some (left, symbol :: rest)
    | some op =>
      match operand rest with
      | none => none
      | some (right, rest) => chainFrom operation? operand bound (.binary op left right) rest
  | _, left, rest => some (left, rest)

/-- Operands with operators between them, grouped from the left. -/
def chain (operation? : Symbol → Option Operation) (operand : List Symbol → Partial Expression)
    (symbols : List Symbol) : Partial Expression :=
  match operand symbols with
  | none => none
  | some (left, rest) => chainFrom operation? operand rest.length left rest

def sumOf (term : List Symbol → Partial Expression) : List Symbol → Partial Expression :=
  chain sumOperation? (chain productOperation? term)

/-- A number, a signed term or a sum in parentheses, at most `depth` of them inside each other. -/
def term : Nat → List Symbol → Partial Expression
  | 0, _ => none
  | _, [] => none
  | depth + 1, symbol :: rest =>
    match symbol with
    | .minus => (term depth rest).map fun (e, rest) => (.negative e, rest)
    | .plus => (term depth rest).map fun (e, rest) => (.positive e, rest)
    | .opening =>
      match sumOf (term depth) rest with
      | some (e, .closing :: rest) => some (e, rest)
      | _ => none
    | .numeral text => (readFloat? text).map fun x => (.number x, rest)
    | _ => none

/-- How deep terms may stand inside each other. -/
def depthLimit : Nat := 64

/-- The expression that a text is, if it is one. -/
def read? (text : List Char) : Option Expression :=
  match sumOf (term depthLimit) (symbols text) with
  | some (e, []) => some e
  | _ => none

/-- The finite value of an arithmetic text. -/
def evaluate (text : List Char) : Option Float :=
  (read? text).bind fun e => if e.value.isFinite then some e.value else none

end ClassStyle.Arithmetic
