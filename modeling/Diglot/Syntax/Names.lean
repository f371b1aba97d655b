import Diglot.Syntax.Stmt

namespace Diglot

-- The names under which the serialized form of a program knows operators and the like. Each name
-- is found again among the values of its type.

namespace BinaryOp

def name : BinaryOp → String
  | add => "Add"
  | subtract => "Subtract"
  | multiply => "Multiply"
  | divide => "Divide"
  | floorDivide => "FloorDivide"
  | modulo => "Modulo"
  | power => "Power"

def ofName? (name : String) : Option BinaryOp :=
  [add, subtract, multiply, divide, floorDivide, modulo, power].find? (·.name == name)

@[simp]
theorem ofName?_name (op : BinaryOp) : ofName? op.name = some op := by
  cases op <;> simp [ofName?, name]

end BinaryOp

namespace UnaryOp

def name : UnaryOp → String
  | negate => "Negate"
  | plus => "Plus"
  | not => "Not"

def ofName? (name : String) : Option UnaryOp := [negate, plus, not].find? (·.name == name)

@[simp]
theorem ofName?_name (op : UnaryOp) : ofName? op.name = some op := by
  cases op <;> simp [ofName?, name]

end UnaryOp

namespace BoolOp

def name : BoolOp → String
  | and => "And"
  | or => "Or"

def ofName? (name : String) : Option BoolOp := [and, or].find? (·.name == name)

@[simp]
theorem ofName?_name (op : BoolOp) : ofName? op.name = some op := by
  cases op <;> simp [ofName?, name]

end BoolOp

namespace CompareOp

def name : CompareOp → String
  | less => "Less"
  | greater => "Greater"
  | lessEqual => "LessEqual"
  | greaterEqual => "GreaterEqual"
  | equal => "Equal"
  | notEqual => "NotEqual"
  | isIn => "In"
  | notIn => "NotIn"

def ofName? (name : String) : Option CompareOp :=
  [less, greater, lessEqual, greaterEqual, equal, notEqual, isIn, notIn].find? (·.name == name)

@[simp]
theorem ofName?_name (op : CompareOp) : ofName? op.name = some op := by
  cases op <;> simp [ofName?, name]

end CompareOp

namespace ParameterKind

def name : ParameterKind → String
  | positional => "Positional"
  | rest => "Rest"
  | keywordCollector => "KeywordCollector"

def ofName? (name : String) : Option ParameterKind :=
  [positional, rest, keywordCollector].find? (·.name == name)

@[simp]
theorem ofName?_name (kind : ParameterKind) : ofName? kind.name = some kind := by
  cases kind <;> simp [ofName?, name]

end ParameterKind

namespace Declaration

def name : Declaration → String
  | letWord => "Let"
  | constWord => "Const"
  | varWord => "Var"

def ofName? (name : String) : Option Declaration :=
  [letWord, constWord, varWord].find? (·.name == name)

@[simp]
theorem ofName?_name (declaration : Declaration) :
    ofName? declaration.name = some declaration := by
  cases declaration <;> simp [ofName?, name]

end Declaration

end Diglot
