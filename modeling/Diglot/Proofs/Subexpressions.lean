import Diglot.Proofs.Placeless
import Diglot.Proofs.Pieces

namespace Diglot

-- Whether a comparison is one of order or of equality.
def CompareOp.isOrder : CompareOp → Bool
  | isIn | notIn => false
  | _ => true

namespace Expr

mutual

-- Whether an expression and all expressions in it pass a test.
def all (p : Expr → Bool) : Expr → Bool
  | e@(.binary _ left right _) => p e && left.all p && right.all p
  | e@(.unary _ operand _) => p e && operand.all p
  | e@(.logical _ left right _) => p e && left.all p && right.all p
  | e@(.compare left comparisons _) => p e && left.all p && linksAll p comparisons
  | e@(.conditional test consequent alternate _) =>
      p e && test.all p && consequent.all p && alternate.all p
  | e@(.membership element container _ _) => p e && element.all p && container.all p
  | e@(.index object subscript _) => p e && object.all p && subscript.all p
  | e@(.slice object start stop step _) =>
      p e && object.all p && optionAll p start && optionAll p stop && optionAll p step
  | e@(.member object _ _) => p e && object.all p
  | e@(.call callee args _) => p e && callee.all p && listAll p args
  | e@(.construct callee args _) => p e && callee.all p && listAll p args
  | e@(.list elements _) => p e && listAll p elements
  | e@(.dict entries _) => p e && entriesAll p entries
  | e@(.interpolated segments _) => p e && segmentsAll p segments
  | e => p e

def listAll (p : Expr → Bool) : List Expr → Bool
  | [] => true
  | first :: rest => first.all p && listAll p rest

def optionAll (p : Expr → Bool) : Option Expr → Bool
  | none => true
  | some expr => expr.all p

def linksAll (p : Expr → Bool) : List (Comparison Expr) → Bool
  | [] => true
  | ⟨_, right⟩ :: rest => right.all p && linksAll p rest

def entriesAll (p : Expr → Bool) : List (DictEntry Expr) → Bool
  | [] => true
  | ⟨.computed key, value⟩ :: rest => key.all p && value.all p && entriesAll p rest
  | ⟨_, value⟩ :: rest => value.all p && entriesAll p rest

def segmentsAll (p : Expr → Bool) : List (Segment Expr) → Bool
  | [] => true
  | .text _ :: rest => segmentsAll p rest
  | .expr value :: rest => value.all p && segmentsAll p rest

end

-- Whether an expression is an operator, a conditional, a number or a word. A chain of comparisons
-- has at least one, and `named` says which words are names.
def isOperator (named : String → Bool) : Expr → Bool
  | binary .. | unary .. | logical .. | conditional .. | boolean .. | null _ => true
  | compare _ comparisons _ => !comparisons.isEmpty && comparisons.all (·.op.isOrder)
  | number literal _ => Number.isLiteral literal.toList
  | var name _ => named name
  | _ => false

def isPower : Expr → Bool
  | binary .power .. => true
  | _ => false

theorem isPower_placeless (e : Expr) : e.placeless.isPower = e.isPower := by
  cases e with
  | binary op left right pos => cases op <;> rfl
  | _ => rfl

-- Whether an expression is no sign in front of a power.
def signsNoPower : Expr → Bool
  | unary .negate operand _ | unary .plus operand _ => !operand.isPower
  | _ => true

end Expr

end Diglot
