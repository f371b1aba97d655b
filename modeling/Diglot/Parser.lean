import Diglot.TokenStream
import Diglot.Syntax.Stmt

namespace Diglot

-- Reads a value off the front of a token stream, or fails.
abbrev Parser := StateT TokenStream (Except Failure)

namespace Parser

variable {α ω : Type}

def current : Parser Token := do return (← get).current

-- The place of the current token.
def position : Parser Pos := do return (← get).current.pos

def peek (offset : Nat) : Parser (Option Token) := do return (← get).peek offset

def isAtEnd : Parser Bool := do return (← get).isAtEnd

def check (kind : TokenKind) : Parser Bool := do return (← get).current.kind == kind

def checkOperator (lexeme : String) : Parser Bool := do
  return (← get).current.isOperator lexeme

def checkKeyword (lexeme : String) : Parser Bool := do
  return (← get).current.isKeyword lexeme

-- Reads the current token, whatever it is.
def advance : Parser Token := TokenStream.advance

def unexpected (expected : String) : Parser α := do throw ((← get).unexpected expected)

def refused (explanation : String) : Parser α := do throw ((← get).refused explanation)

-- Gives up at the current token.
def exhausted : Parser α := do throw ⟨.exhausted, (← get).current.pos⟩

-- Reads a token of a given category and, where one is given, a given text.
def expect (kind : TokenKind) (lexeme : Option String) : Parser Token := do
  let token ← current
  if token.kind == kind && lexeme.all (· == token.lexeme) then advance
  else
    match lexeme with
    | some lexeme => unexpected (kind.name ++ " '" ++ lexeme ++ "'")
    | none => unexpected kind.name

def expectOperator (lexeme : String) : Parser Token := expect .operator (some lexeme)

def expectKeyword (lexeme : String) : Parser Token := expect .keyword (some lexeme)

-- Reads a name.
def identifier : Parser String := do return (← expect .identifier none).lexeme

-- Reads the given operator if it stands there, and says whether it does.
def eatOperator (lexeme : String) : Parser Bool := do
  if ← checkOperator lexeme then
    let _ ← advance
    return true
  else return false

-- Reads the given keyword if it stands there, and says whether it does.
def eatKeyword (lexeme : String) : Parser Bool := do
  if ← checkKeyword lexeme then
    let _ ← advance
    return true
  else return false

def skipNewlines : Parser Unit := modify (·.dropWhile (·.kind == .newline))

def skipSemicolons : Parser Unit := modify (·.dropWhile (·.isOperator ";"))

-- The loops below take a limit on their rounds, and give up when it is used up. Each round reads a
-- token, so that the number of tokens is never too small a limit.

-- Reads items up to the operator `close`, which is not read. Commas divide them, and one may
-- stand behind the last.
def separated (close : String) (item : Parser α) : Nat → Parser (List α)
  | 0 => exhausted
  | limit + 1 => do
      if ← checkOperator close then return []
      let first ← item
      if ← eatOperator "," then return first :: (← separated close item limit)
      else return [first]

-- Reads items divided by commas, and the operator behind them.
def enclosed (close : String) (item : Parser α) (limit : Nat) : Parser (List α) := do
  let items ← separated close item limit
  let _ ← expectOperator close
  return items

-- Reads items until `stop` says that there are no more. What may stand between items is skipped.
def repeated (skip : Parser Unit) (stop : Parser Bool) (item : Parser α) : Nat → Parser (List α)
  | 0 => exhausted
  | limit + 1 => do
      skip
      if ← stop then return []
      let first ← item
      return first :: (← repeated skip stop item limit)

-- Reads items as long as `more` finds what announces one.
def whilst (more : Parser (Option ω)) (item : ω → Parser α) : Nat → Parser (List α)
  | 0 => exhausted
  | limit + 1 => do
      match ← more with
      | none => return []
      | some mark => do
          let first ← item mark
          return first :: (← whilst more item limit)

-- Reads operators with their right operands, and applies each to all that stands left of it.
def chainLeft (operator? : Parser (Option ω)) (operand : Parser α) (apply : ω → α → α → α) :
    Nat → α → Parser α
  | 0, _ => exhausted
  | limit + 1, left => do
      match ← operator? with
      | none => return left
      | some op => do
          let right ← operand
          chainLeft operator? operand apply limit (apply op left right)

-- Reads a left-associative chain of operands. Every node starts where the chain does.
def leftAssoc (operator? : Parser (Option ω)) (operand : Parser Expr)
    (node : ω → Expr → Expr → Pos → Expr) (limit : Nat) : Parser Expr := do
  let pos ← position
  let first ← operand
  chainLeft operator? operand (fun op left right => node op left right pos) limit first

-- Reads one of some operators, each with what it stands for.
def oneOperator (table : List (String × ω)) : Parser (Option ω) := do
  let token ← current
  match table.find? (fun entry => token.isOperator entry.1) with
  | none => return none
  | some entry => do
      let _ ← advance
      return some entry.2

-- Fails unless an expression may be assigned to.
def checkAssignable (target : Expr) : Parser Unit := do
  if target.isAssignable then return
  else throw ⟨.invalidTarget target.kindName, target.pos⟩

-- Reads the rest of `a = b = value` behind `a`, whose `=` is the current token. Gives the further
-- targets and the value.
def assignedTo (expression : Parser Expr) : Nat → Parser (List Expr × Expr)
  | 0 => exhausted
  | limit + 1 => do
      let _ ← advance
      let next ← expression
      if ← checkOperator "=" then
        let (targets, value) ← assignedTo expression limit
        return (next :: targets, value)
      else return ([], next)

-- Reads an assignment behind its first target. All targets are checked once the value is read.
def assignment (expression : Parser Expr) (limit : Nat) (first : Expr) (pos : Pos) :
    Parser Stmt := do
  let (targets, value) ← assignedTo expression limit
  (first :: targets).forM checkAssignable
  return .assign (first :: targets) (some value) none pos

-- Reads an augmented assignment behind its target, whose operator is the current token.
def augmented (expression : Parser Expr) (op : BinaryOp) (target : Expr) (pos : Pos) :
    Parser Stmt := do
  checkAssignable target
  let _ ← advance
  let value ← expression
  return .augAssign target op value pos

end Parser

end Diglot
