import Diglot.Syntax.Stmt

namespace Diglot.Braced

mutual

-- The plain names that statements assign to without declaring them, in source order and with
-- repetitions. Functions and classes inside are scopes of their own.
def assigned : Stmt → List String
  | .assign targets _ none _ => targets.filterMap Expr.var?
  | .ifElse _ body elifs orElse _ =>
      assignedIn body ++ assignedInElifs elifs ++ assignedInOption orElse
  | .forIn _ _ body _ => assignedIn body
  | .forClauses init _ _ body _ => assignedInInit init ++ assignedIn body
  | .whileDo _ body _ => assignedIn body
  | .tryCatch body handler cleanup _ =>
      assignedIn body ++ assignedInHandler handler ++ assignedInOption cleanup
  | _ => []

def assignedIn : List Stmt → List String
  | [] => []
  | first :: rest => assigned first ++ assignedIn rest

def assignedInOption : Option (List Stmt) → List String
  | none => []
  | some body => assignedIn body

def assignedInInit : Option Stmt → List String
  | none => []
  | some init => assigned init

def assignedInElifs : List (ElifClause Stmt) → List String
  | [] => []
  | ⟨_, body, _⟩ :: rest => assignedIn body ++ assignedInElifs rest

def assignedInHandler : Option (Handler Stmt) → List String
  | none => []
  | some ⟨_, body, _⟩ => assignedIn body

end

-- The names that a scope with the given body and parameters declares at its top: those that are
-- assigned in it and are not parameters, each once, in the order in which they first come up.
def hoisted (body : List Stmt) (params : List Parameter) : List String :=
  (assignedIn body).eraseDups.filter fun name => !params.any (·.name == name)

end Diglot.Braced
