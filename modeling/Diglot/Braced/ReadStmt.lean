import Diglot.Braced.CountingLoop
import Diglot.Braced.ReadExpr

namespace Diglot.Braced

open Diglot.Parser

-- The operators of augmented assignments.
def augmentedOps : List (String × BinaryOp) :=
  [("+=", .add), ("-=", .subtract), ("*=", .multiply), ("/=", .divide), ("%=", .modulo),
    ("**=", .power)]

-- The operators that add or subtract one.
def incrementOps : List (String × BinaryOp) := [("++", .add), ("--", .subtract)]

-- The words that declare a variable.
def declarationWords : List (String × Declaration) :=
  [("let", .letWord), ("const", .constWord), ("var", .varWord)]

-- The declaration that a token announces.
def declaration? (token : Token) : Option Declaration :=
  (declarationWords.find? (fun entry => token.isKeyword entry.1)).map (·.2)

-- Adding or subtracting one.
def increment (target : Expr) (op : BinaryOp) (pos : Pos) : Stmt :=
  .augAssign target op (.number "1" pos) pos

-- Whether an expression is `console.log`.
def isConsoleLog : Expr → Bool
  | .member (.var "console" _) "log" _ => true
  | _ => false

-- A call of `console.log` that stands alone prints.
def recognizePrint (found : Stmt) : Stmt :=
  match found with
  | .expr (.call callee args _) pos => if isConsoleLog callee then .print args pos else found
  | _ => found

-- Reads the semicolon behind a statement, if there is one.
def endOfStatement : Parser Unit := do
  let _ ← eatOperator ";"

-- Whether braces end here; reads the brace that ends them.
def endOfBlock : Parser Bool := do
  if ← eatOperator "\x7d" then return true
  else if ← isAtEnd then unexpected "'\x7d'"
  else return false

def importedName : Parser ImportedName := do
  let name ← identifier
  if ← eatKeyword "as" then return ⟨name, some (← identifier)⟩ else return ⟨name, none⟩

-- Reads what an import brings in, up to the word `from`.
def importKind (limit : Nat) : Parser ImportKind := do
  if ← eatOperator "\x7b" then return .names (← enclosed "\x7d" importedName limit)
  else if ← eatOperator "*" then
    let _ ← expectKeyword "as"
    return .whole (some (← identifier))
  else return .whole (some (← identifier))

def importStatement (limit : Nat) : Parser Stmt := do
  let pos ← position
  let _ ← expectKeyword "import"
  if ← check .string then
    let module ← advance
    endOfStatement
    return .imports module.lexeme (.whole none) pos
  else
    let kind ← importKind limit
    let _ ← expectKeyword "from"
    let module ← expect .string none
    endOfStatement
    return .imports module.lexeme kind pos

section Levels

variable (expression : Parser Expr) (statement : Parser Stmt) (limit : Nat)

-- Reads a block in braces.
def block : Parser (List Stmt) := do
  let _ ← expectOperator "\x7b"
  repeated skipSemicolons endOfBlock statement limit

-- Reads a block, or a single statement in place of one.
def body : Parser (List Stmt) := do
  if ← checkOperator "\x7b" then block statement limit
  else return [← statement]

-- Reads the declaration of one variable.
def declare (declaration : Declaration) : Parser Stmt := do
  let pos ← position
  let _ ← advance
  let namePos ← position
  let name ← identifier
  let value ← if ← eatOperator "=" then do pure (some (← expression)) else pure none
  if ← checkOperator "," then
    refused "declaring several variables in one statement is not supported"
  else return .assign [.var name namePos] value (some declaration) pos

-- Reads a parameter. Only a positional one may have a default.
def parameter : Parser Parameter := do
  let pos ← position
  if ← eatOperator "..." then return ⟨← identifier, .rest, none, pos⟩
  else
    let name ← identifier
    if ← eatOperator "=" then return ⟨name, .positional, some (← expression), pos⟩
    else return ⟨name, .positional, none, pos⟩

-- Reads the parameters and the body of a function.
def functionRest (name : String) (pos : Pos) : Parser Stmt := do
  let _ ← expectOperator "("
  let params ← enclosed ")" (parameter expression) limit
  return .functionDef name params (← block statement limit) pos

def functionDef : Parser Stmt := do
  let pos ← position
  let _ ← expectKeyword "function"
  let name ← identifier
  functionRest expression statement limit name pos

-- Reads a method or a field. The word `static` in front of one is passed over.
def classMember : Parser Stmt := do
  if (← current).is .identifier "static" && (← peek 1).any (·.kind == .identifier) then
    let _ ← advance
  let pos ← position
  let name ← identifier
  if ← checkOperator "(" then functionRest expression statement limit name pos
  else
    let value ← if ← eatOperator "=" then do pure (some (← expression)) else pure none
    endOfStatement
    return .assign [.var name pos] value none pos

def classDef : Parser Stmt := do
  let pos ← position
  let _ ← expectKeyword "class"
  let name ← identifier
  let base ← if ← eatKeyword "extends" then do pure (some (← identifier)) else pure none
  let _ ← expectOperator "\x7b"
  let members ← repeated skipSemicolons endOfBlock (classMember expression statement limit) limit
  return .classDef name base members pos

-- Reads a keyword, a condition in brackets and a body.
def conditionAndBody (keyword : String) : Parser (Expr × List Stmt) := do
  let _ ← expectKeyword keyword
  let _ ← expectOperator "("
  let condition ← expression
  let _ ← expectOperator ")"
  return (condition, ← body statement limit)

-- Reads the parts of a branch behind its first body. `else if` adds a further condition.
def branches : Nat → Parser (List (ElifClause Stmt) × Option (List Stmt))
  | 0 => exhausted
  | rounds + 1 => do
      if ← eatKeyword "else" then
        if ← checkKeyword "if" then
          let pos ← position
          let (condition, found) ← conditionAndBody expression statement limit "if"
          let (elifs, orElse) ← branches rounds
          return (⟨condition, found, pos⟩ :: elifs, orElse)
        else return ([], some (← body statement limit))
      else return ([], none)

def ifStatement : Parser Stmt := do
  let pos ← position
  let (condition, found) ← conditionAndBody expression statement limit "if"
  let (elifs, orElse) ← branches expression statement limit limit
  return .ifElse condition found elifs orElse pos

def whileStatement : Parser Stmt := do
  let pos ← position
  let (condition, found) ← conditionAndBody expression statement limit "while"
  return .whileDo condition found pos

-- Reads an increment, an assignment, an augmented assignment or an expression, without a
-- semicolon.
def inlineStatement : Parser Stmt := do
  let pos ← position
  match ← oneOperator incrementOps with
  | some op => do
      let target ← unary expression limit limit
      checkAssignable target
      return increment target op pos
  | none => do
      let first ← expression
      let token ← current
      if token.isOperator "=" then assignment expression limit first pos
      else
        match augmentedOps.find? (fun entry => token.isOperator entry.1) with
        | some entry => augmented expression entry.2 first pos
        | none =>
            match incrementOps.find? (fun entry => token.isOperator entry.1) with
            | some entry => do
                checkAssignable first
                let _ ← advance
                return increment first entry.2 pos
            | none => return .expr first pos

def simpleStatement : Parser Stmt := do
  let found ← inlineStatement expression limit
  endOfStatement
  return recognizePrint found

-- Reads the first clause of a loop with three.
def initClause : Parser (Option Stmt) := do
  if ← checkOperator ";" then return none
  else
    match declaration? (← current) with
    | some declaration => return some (← declare expression declaration)
    | none => return some (← inlineStatement expression limit)

-- Reads a loop with three clauses behind its opening bracket.
def clauseLoop (pos : Pos) : Parser Stmt := do
  let init ← initClause expression limit
  let _ ← expectOperator ";"
  let test ← if ← checkOperator ";" then pure none else do pure (some (← expression))
  let _ ← expectOperator ";"
  let update ←
    if ← checkOperator ")" then pure none
    else do pure (some (← inlineStatement expression limit))
  let _ ← expectOperator ")"
  let found ← body statement limit
  match countingLoop? init test update with
  | some (target, iteration) => return .forIn target iteration found pos
  | none => return .forClauses init test update found pos

-- Reads a loop over the elements of something behind its opening bracket.
def eachLoop (pos : Pos) : Parser Stmt := do
  if (declaration? (← current)).isSome then
    let _ ← advance
  let target ← identifier
  let _ ← expectKeyword "of"
  let iterable ← expression
  let _ ← expectOperator ")"
  return .forIn target (.each iterable) (← body statement limit) pos

-- Reads a loop over elements, told by the word `of` behind its variable, or one with three clauses.
def forStatement : Parser Stmt := do
  let pos ← position
  let _ ← expectKeyword "for"
  let _ ← expectOperator "("
  let offset := if (declaration? (← current)).isSome then 1 else 0
  let isName := (← peek offset).any (·.kind == .identifier)
  if isName && (← peek (offset + 1)).any (·.isKeyword "of") then
    eachLoop expression statement limit pos
  else clauseLoop expression statement limit pos

-- Reads an exception handler. The name of the exception may be missing.
def handler? : Parser (Option (Handler Stmt)) := do
  let pos ← position
  if ← eatKeyword "catch" then
    let name ←
      if ← eatOperator "(" then do
        let name ← identifier
        let _ ← expectOperator ")"
        pure (some name)
      else pure none
    return some ⟨name, ← block statement limit, pos⟩
  else return none

-- Reads a `try` with its handler, its cleanup, or both.
def tryStatement : Parser Stmt := do
  let pos ← position
  let _ ← expectKeyword "try"
  let found ← block statement limit
  let handler ← handler? statement limit
  let cleanup ←
    if ← eatKeyword "finally" then do pure (some (← block statement limit)) else pure none
  if handler.isNone && cleanup.isNone then unexpected "'catch' or 'finally'"
  else return .tryCatch found handler cleanup pos

def returnStatement : Parser Stmt := do
  let pos ← position
  let _ ← expectKeyword "return"
  let value ←
    if (← checkOperator ";") || (← checkOperator "\x7d") || (← isAtEnd) then pure none
    else do pure (some (← expression))
  endOfStatement
  return .returns value pos

-- Reads a statement that is a single keyword.
def keywordStatement (node : Pos → Stmt) : Parser Stmt := do
  let token ← advance
  endOfStatement
  return node token.pos

-- Reads a statement, told by its first token. What is exported is read as if it were not.
def anyStatement : Parser Stmt := do
  let token ← current
  if token.isOperator "\x7b" then refused "standalone blocks are not supported"
  else if token.kind != .keyword then simpleStatement expression limit
  else
    match token.lexeme with
    | "import" => importStatement limit
    | "export" => do
        let _ ← advance
        if (← current).is .identifier "default" then
          let _ ← advance
        statement
    | "function" => functionDef expression statement limit
    | "class" => classDef expression statement limit
    | "if" => ifStatement expression statement limit
    | "for" => forStatement expression statement limit
    | "while" => whileStatement expression statement limit
    | "try" => tryStatement statement limit
    | "return" => returnStatement expression
    | "break" => keywordStatement .breaks
    | "continue" => keywordStatement .continues
    | _ =>
        match declaration? token with
        | some declaration => do
            let found ← declare expression declaration
            endOfStatement
            return found
        | none => simpleStatement expression limit

end Levels

-- Reads a statement of fewer tokens than the limit. The statements inside it have fewer still.
def statement (expression : Parser Expr) : Nat → Parser Stmt
  | 0 => exhausted
  | limit + 1 => anyStatement expression (statement expression limit) (limit + 1)

-- Reads a whole program.
def program (expression : Parser Expr) (limit : Nat) : Parser Module := do
  let pos ← position
  return ⟨← repeated skipSemicolons isAtEnd (statement expression limit) limit, pos⟩

-- The program that a list of tokens says.
def parse (tokens : List Token) : Except Failure Module :=
  let stream := TokenStream.plain tokens
  (program (expression stream.size) stream.size).run' stream

end Diglot.Braced
