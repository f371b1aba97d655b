import Diglot.Indented.ReadExpr

namespace Diglot.Indented

open Diglot.Parser

-- The operators of augmented assignments.
def augmentedOps : List (String × BinaryOp) :=
  [("+=", .add), ("-=", .subtract), ("*=", .multiply), ("/=", .divide), ("//=", .floorDivide),
    ("%=", .modulo), ("**=", .power)]

-- What a loop over an expression runs over. A call of `range` with one to three arguments counts.
def iterationOf (iterable : Expr) : Iteration :=
  match iterable with
  | .call (.var "range" _) [stop] _ => .range none stop none
  | .call (.var "range" _) [start, stop] _ => .range (some start) stop none
  | .call (.var "range" _) [start, stop, step] _ => .range (some start) stop (some step)
  | _ => .each iterable

-- Reads the end of a simple statement: a line feed, or nothing in front of a dedent or the end.
def endOfStatement : Parser Unit := do
  if ← check .newline then
    let _ ← advance
  else if (← check .dedent) || (← isAtEnd) then return
  else unexpected "NEWLINE"

-- Whether a block ends here; reads the dedent that ends it.
def endOfBlock : Parser Bool := do
  if ← check .dedent then
    let _ ← advance
    return true
  else if ← isAtEnd then unexpected "DEDENT"
  else return false

-- Reads names divided by dots.
def dottedName (limit : Nat) : Parser String := do
  let first ← identifier
  let more ← whilst (do if ← eatOperator "." then return some () else return none)
    (fun _ => identifier) limit
  return ".".intercalate (first :: more)

-- Reads another name that something is given, if there is one.
def otherName? : Parser (Option String) := do
  if ← eatKeyword "as" then return some (← identifier) else return none

def importedName : Parser ImportedName := do
  let name ← identifier
  return ⟨name, ← otherName?⟩

-- Reads an import of a module or of names from it.
def importStatement (limit : Nat) : Parser Stmt := do
  let pos ← position
  if ← eatKeyword "import" then
    let module ← dottedName limit
    return .imports module (.whole (← otherName?)) pos
  else
    let _ ← expectKeyword "from"
    let module ← dottedName limit
    let _ ← expectKeyword "import"
    let first ← importedName
    let more ← whilst (do if ← eatOperator "," then return some () else return none)
      (fun _ => importedName) limit
    return .imports module (.names (first :: more)) pos

section Levels

variable (expression : Parser Expr) (statement : Parser Stmt) (limit : Nat)

-- Reads a block: a colon, a line feed and the indented statements.
def block : Parser (List Stmt) := do
  let _ ← expectOperator ":"
  let _ ← expect .newline none
  skipNewlines
  let _ ← expect .indent none
  repeated skipNewlines endOfBlock statement limit

-- Reads a parameter. Only a positional one may have a default.
def parameter : Parser Parameter := do
  let pos ← position
  if ← eatOperator "**" then return ⟨← identifier, .keywordCollector, none, pos⟩
  else if ← eatOperator "*" then return ⟨← identifier, .rest, none, pos⟩
  else
    let name ← identifier
    if ← eatOperator "=" then return ⟨name, .positional, some (← expression), pos⟩
    else return ⟨name, .positional, none, pos⟩

def functionDef : Parser Stmt := do
  let pos ← position
  let _ ← expectKeyword "def"
  let name ← identifier
  let _ ← expectOperator "("
  let params ← enclosed ")" (parameter expression) limit
  let body ← block statement limit
  return .functionDef name params body pos

-- Reads the base of a class in its brackets, which may be empty or missing.
def baseClass : Parser (Option String) := do
  if ← eatOperator "(" then
    let base ← if ← checkOperator ")" then pure none else do pure (some (← identifier))
    let _ ← expectOperator ")"
    return base
  else return none

def classDef : Parser Stmt := do
  let pos ← position
  let _ ← expectKeyword "class"
  let name ← identifier
  let base ← baseClass
  let body ← block statement limit
  return .classDef name base body pos

-- Reads a keyword and a block, if the keyword stands there.
def optionalBlock (keyword : String) : Parser (Option (List Stmt)) := do
  if ← eatKeyword keyword then return some (← block statement limit) else return none

-- Reads a keyword that announces a further part, and gives its place.
def announced (keyword : String) : Parser (Option Pos) := do
  let pos ← position
  if ← eatKeyword keyword then return some pos else return none

def ifStatement : Parser Stmt := do
  let pos ← position
  let _ ← expectKeyword "if"
  let condition ← expression
  let body ← block statement limit
  let elifs ← whilst (announced "elif") (fun pos => do
    let condition ← expression
    let body ← block statement limit
    return (⟨condition, body, pos⟩ : ElifClause Stmt)) limit
  let orElse ← optionalBlock statement limit "else"
  return .ifElse condition body elifs orElse pos

def forStatement : Parser Stmt := do
  let pos ← position
  let _ ← expectKeyword "for"
  let target ← identifier
  let _ ← expectKeyword "in"
  let iterable ← expression
  let body ← block statement limit
  return .forIn target (iterationOf iterable) body pos

def whileStatement : Parser Stmt := do
  let pos ← position
  let _ ← expectKeyword "while"
  let condition ← expression
  let body ← block statement limit
  return .whileDo condition body pos

-- Reads an exception handler. The type of the exception is read and forgotten.
def handler? : Parser (Option (Handler Stmt)) := do
  match ← announced "except" with
  | none => return none
  | some pos => do
      if ← check .identifier then
        let _ ← advance
      let name ← otherName?
      let body ← block statement limit
      return some ⟨name, body, pos⟩

-- Reads a `try` with its handler, its cleanup, or both.
def tryStatement : Parser Stmt := do
  let pos ← position
  let _ ← expectKeyword "try"
  let body ← block statement limit
  let handler ← handler? statement limit
  let cleanup ← optionalBlock statement limit "finally"
  if handler.isNone && cleanup.isNone then unexpected "'except' or 'finally'"
  else return .tryCatch body handler cleanup pos

def returnStatement : Parser Stmt := do
  let pos ← position
  let _ ← expectKeyword "return"
  let value ←
    if (← check .newline) || (← check .dedent) || (← isAtEnd) then pure none
    else do pure (some (← expression))
  endOfStatement
  return .returns value pos

def printStatement : Parser Stmt := do
  let pos ← position
  let _ ← expectKeyword "print"
  let _ ← expectOperator "("
  let args ← enclosed ")" expression limit
  endOfStatement
  return .print args pos

-- Reads an assignment, an augmented assignment or an expression.
def simpleStatement : Parser Stmt := do
  let pos ← position
  let first ← expression
  let token ← current
  let found ←
    if token.isOperator "=" then assignment expression limit first pos
    else
      match augmentedOps.find? (fun entry => token.isOperator entry.1) with
      | some entry => augmented expression entry.2 first pos
      | none => pure (.expr first pos)
  endOfStatement
  return found

-- Reads a statement that is a single keyword.
def keywordStatement (node : Pos → Stmt) : Parser Stmt := do
  let token ← advance
  endOfStatement
  return node token.pos

-- Reads a statement, told by its first token. `print` is one only in front of a bracket.
def anyStatement : Parser Stmt := do
  let token ← current
  if token.kind != .keyword then simpleStatement expression limit
  else
    match token.lexeme with
    | "def" => functionDef expression statement limit
    | "class" => classDef statement limit
    | "if" => ifStatement expression statement limit
    | "for" => forStatement expression statement limit
    | "while" => whileStatement expression statement limit
    | "try" => tryStatement statement limit
    | "import" | "from" => do
        let found ← importStatement limit
        endOfStatement
        return found
    | "return" => returnStatement expression
    | "print" => do
        if (← peek 1).any (·.isOperator "(") then printStatement expression limit
        else simpleStatement expression limit
    | "pass" => keywordStatement .pass
    | "break" => keywordStatement .breaks
    | "continue" => keywordStatement .continues
    | _ => simpleStatement expression limit

end Levels

-- Reads a statement of fewer tokens than the limit. The statements in its blocks have fewer still.
def statement (expression : Parser Expr) : Nat → Parser Stmt
  | 0 => exhausted
  | limit + 1 => anyStatement expression (statement expression limit) (limit + 1)

-- Reads a whole program. All its blocks must be closed at the end.
def program (expression : Parser Expr) (limit : Nat) : Parser Module := do
  let pos ← position
  let body ← repeated skipNewlines isAtEnd (statement expression limit) limit
  if (← get).depth != 0 then refused "indented block is not closed at end of input"
  else return ⟨body, pos⟩

-- The program that a list of tokens says.
def parse (tokens : List Token) : Except Failure Module :=
  let stream := TokenStream.withLayout tokens
  let expression := expression (embeddedExpr (longestLexeme tokens)) stream.size
  (program expression stream.size).run' stream

end Diglot.Indented
