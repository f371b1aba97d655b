namespace Diglot

-- Arithmetic operators.
inductive BinaryOp where
  | add
  | subtract
  | multiply
  | divide
  | floorDivide
  | modulo
  | power
  deriving DecidableEq, Repr, Inhabited

-- Operators in front of their operand.
inductive UnaryOp where
  | negate
  | plus
  | not
  deriving DecidableEq, Repr, Inhabited

-- Operators that may leave their right operand unevaluated.
inductive BoolOp where
  | and
  | or
  deriving DecidableEq, Repr, Inhabited

-- Comparisons, which may be chained.
inductive CompareOp where
  | less
  | greater
  | lessEqual
  | greaterEqual
  | equal
  | notEqual
  | isIn
  | notIn
  deriving DecidableEq, Repr, Inhabited

end Diglot
