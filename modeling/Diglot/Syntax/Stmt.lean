import Diglot.Syntax.Expr

namespace Diglot

structure ImportedName where
  name : String
  otherName : Option String
  deriving DecidableEq, Repr

-- What an import brings in.
inductive ImportKind where
  -- The module itself, under its own name or another.
  | whole (otherName : Option String)
  | names (names : List ImportedName)
  deriving DecidableEq, Repr

inductive ParameterKind where
  | positional
  -- Takes the remaining positional arguments.
  | rest
  -- Takes the remaining keyword arguments.
  | keywordCollector
  deriving DecidableEq, Repr

structure Parameter where
  name : String
  kind : ParameterKind
  default : Option Expr
  pos : Pos
  deriving Repr

-- What a loop runs over.
inductive Iteration where
  -- The numbers from `start`, or zero, up to `stop` in steps of `step`, or one.
  | range (start : Option Expr) (stop : Expr) (step : Option Expr)
  | each (iterable : Expr)
  deriving Repr

-- The word that declares a variable.
inductive Declaration where
  | letWord
  | constWord
  | varWord
  deriving DecidableEq, Repr

-- A further condition of a branch, with what is done if it holds.
structure ElifClause (σ : Type) where
  condition : Expr
  body : List σ
  pos : Pos
  deriving Repr

-- What is done about an exception, and the name that it is given.
structure Handler (σ : Type) where
  name : Option String
  body : List σ
  pos : Pos
  deriving Repr

-- The statements of both notations. Every node has the place of its first token.
inductive Stmt where
  | imports (module : String) (kind : ImportKind) (pos : Pos)
  | classDef (name : String) (base : Option String) (body : List Stmt) (pos : Pos)
  | functionDef (name : String) (params : List Parameter) (body : List Stmt) (pos : Pos)
  | ifElse (condition : Expr) (body : List Stmt) (elifs : List (ElifClause Stmt))
      (orElse : Option (List Stmt)) (pos : Pos)
  | forIn (target : String) (iteration : Iteration) (body : List Stmt) (pos : Pos)
  -- A loop with three clauses that is not a plain counting loop.
  | forClauses (init : Option Stmt) (test : Option Expr) (update : Option Stmt)
      (body : List Stmt) (pos : Pos)
  | whileDo (condition : Expr) (body : List Stmt) (pos : Pos)
  | tryCatch (body : List Stmt) (handler : Option (Handler Stmt)) (cleanup : Option (List Stmt))
      (pos : Pos)
  | returns (value : Option Expr) (pos : Pos)
  -- `a = b = value`, with the targets from left to right.
  | assign (targets : List Expr) (value : Option Expr) (declaration : Option Declaration)
      (pos : Pos)
  | augAssign (target : Expr) (op : BinaryOp) (value : Expr) (pos : Pos)
  | print (args : List Expr) (pos : Pos)
  | expr (value : Expr) (pos : Pos)
  | pass (pos : Pos)
  | breaks (pos : Pos)
  | continues (pos : Pos)
  deriving Repr, Inhabited

namespace Stmt

-- Where a statement starts.
def pos : Stmt → Pos
  | imports _ _ pos | classDef _ _ _ pos | functionDef _ _ _ pos | ifElse _ _ _ _ pos
  | forIn _ _ _ pos | forClauses _ _ _ _ pos | whileDo _ _ pos | tryCatch _ _ _ pos
  | returns _ pos | assign _ _ _ pos | augAssign _ _ _ pos | print _ pos | expr _ pos | pass pos
  | breaks pos | continues pos => pos

-- The name of the kind of a statement.
def kindName : Stmt → String
  | imports .. => "Import"
  | classDef .. => "ClassDef"
  | functionDef .. => "FunctionDef"
  | ifElse .. => "If"
  | forIn .. => "For"
  | forClauses .. => "ForClassic"
  | whileDo .. => "While"
  | tryCatch .. => "Try"
  | returns .. => "Return"
  | assign .. => "Assign"
  | augAssign .. => "AugAssign"
  | print .. => "Print"
  | expr .. => "Expression"
  | pass .. => "Pass"
  | breaks .. => "Break"
  | continues .. => "Continue"

end Stmt

-- A whole program.
structure Module where
  body : List Stmt
  pos : Pos
  deriving Repr, Inhabited

end Diglot
