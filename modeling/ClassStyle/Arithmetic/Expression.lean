/-!
# Arithmetic expressions

Sums, products, signs and numbers, and the double-precision value of such an expression. The
value is computed in the order of the tree, each operation rounded once.
-/

namespace ClassStyle.Arithmetic

inductive Operation where
  | add
  | subtract
  | multiply
  | divide
  deriving DecidableEq, Inhabited

inductive Expression where
  | number (value : Float)
  | positive (operand : Expression)
  | negative (operand : Expression)
  | binary (operation : Operation) (left right : Expression)
  deriving Inhabited

def Operation.apply : Operation → Float → Float → Float
  | add, x, y => x + y
  | subtract, x, y => x - y
  | multiply, x, y => x * y
  | divide, x, y => x / y

def Expression.value : Expression → Float
  | number x => x
  | positive e => e.value
  | negative e => -e.value
  | binary op left right => op.apply left.value right.value

end ClassStyle.Arithmetic
