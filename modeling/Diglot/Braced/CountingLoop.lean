import Diglot.Syntax.Stmt

namespace Diglot.Braced

-- The one name that a statement gives a value to, and the value.
def initialised? : Stmt → Option (String × Expr)
  | .assign [target] (some value) _ _ => target.var?.map (·, value)
  | _ => none

-- The operator and the right side of a single comparison of the given name.
def bounded? (name : String) : Expr → Option (CompareOp × Expr)
  | .compare left [⟨op, stop⟩] _ => if left.var? = some name then some (op, stop) else none
  | _ => none

-- The operator and the amount by which a statement changes the given name.
def changed? (name : String) : Stmt → Option (BinaryOp × Expr)
  | .augAssign target op amount _ =>
      if target.var? = some name then some (op, amount) else none
  | _ => none

-- The step of a loop that goes on while `op` holds and changes its variable by `change`. The
-- outer option says whether the loop counts at all; a step of one is left out.
def step? (op : CompareOp) (change : BinaryOp) (amount : Expr) : Option (Option Expr) :=
  match op, change with
  | .less, .add => some (if amount.isNumber "1" then none else some amount)
  | .greater, .subtract => some (some (.unary .negate amount amount.pos))
  | _, _ => none

-- Recognizes a loop that counts one variable up or down to a bound, such as
-- `let i = a; i < b; i++`. A start of zero is left out where the step is.
def countingLoop? (init : Option Stmt) (test : Option Expr) (update : Option Stmt) :
    Option (String × Iteration) := do
  let (target, start) ← initialised? (← init)
  let (op, stop) ← bounded? target (← test)
  let (change, amount) ← changed? target (← update)
  let step ← step? op change amount
  let start := if start.isNumber "0" && step.isNone then none else some start
  return (target, .range start stop step)

end Diglot.Braced
