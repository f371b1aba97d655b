import Diglot.Parser
import Diglot.Braced.Lexer

namespace Diglot.Braced

open Diglot.Parser

-- Additive operators.
def additiveOps : List (String × BinaryOp) := [("+", .add), ("-", .subtract)]

-- Multiplicative operators.
def multiplicativeOps : List (String × BinaryOp) :=
  [("*", .multiply), ("/", .divide), ("%", .modulo)]

-- Operators in front of an operand.
def unaryOps : List (String × UnaryOp) := [("!", .not), ("-", .negate), ("+", .plus)]

-- Strict and loose equality are one.
def equalityOps : List (String × CompareOp) :=
  [("===", .equal), ("==", .equal), ("!==", .notEqual), ("!=", .notEqual)]

def relationalOps : List (String × CompareOp) :=
  [("<", .less), (">", .greater), ("<=", .lessEqual), (">=", .greaterEqual)]

-- A single comparison.
def comparison (op : CompareOp) (left right : Expr) (pos : Pos) : Expr :=
  .compare left [⟨op, right⟩] pos

-- Reads a property name behind a dot, which may be a reserved word.
def propertyName : Parser String := do
  let token ← current
  if token.kind == .identifier || token.kind == .keyword then
    let _ ← advance
    return token.lexeme
  else unexpected "property name"

section Levels

-- Every level of the grammar is given a reader of whole expressions, for what stands in brackets,
-- and a limit for its loops.
variable (expression : Parser Expr) (limit : Nat)

-- Reads the value of a property behind its key, or takes a plain name as its own value.
def propertyValue (key : Token) : Parser Expr := do
  if ← eatOperator ":" then expression
  else if key.kind == .identifier then return .var key.lexeme key.pos
  else unexpected "':'"

-- Reads a property of an object.
def property : Parser (DictEntry Expr) := do
  let token ← current
  match token.kind with
  | .identifier | .keyword | .string => do
      let _ ← advance
      return ⟨.literal token.lexeme, ← propertyValue expression token⟩
  | .number => do
      let _ ← advance
      return ⟨.number token.lexeme, ← propertyValue expression token⟩
  | _ => do
      if ← eatOperator "[" then
        let key ← expression
        let _ ← expectOperator "]"
        return ⟨.computed key, ← propertyValue expression token⟩
      else unexpected "property name"

-- Reads the call of a constructor. The arguments may be missing.
def construction : Parser Expr := do
  let pos ← position
  let _ ← expectKeyword "new"
  let name ← identifier
  let path ← whilst (do if ← eatOperator "." then return some () else return none)
    (fun _ => propertyName) limit
  let callee := path.foldl (fun object name => .member object name pos) (.var name pos)
  if ← eatOperator "(" then return .construct callee (← enclosed ")" expression limit) pos
  else return .construct callee [] pos

-- Reads a literal, a name, or something in brackets.
def primary : Parser Expr := do
  let token ← current
  match token.kind with
  | .number => do
      let _ ← advance
      return .number token.lexeme token.pos
  | .string => do
      let _ ← advance
      return .string token.lexeme token.pos
  | .template => do
      let _ ← advance
      return .template token.lexeme token.pos
  | .identifier => do
      let _ ← advance
      return .var token.lexeme token.pos
  | .keyword =>
      match token.lexeme with
      | "true" => do
          let _ ← advance
          return .boolean true token.pos
      | "false" => do
          let _ ← advance
          return .boolean false token.pos
      | "null" | "undefined" => do
          let _ ← advance
          return .null token.pos
      | "this" => do
          let _ ← advance
          return .this token.pos
      | "super" => do
          let _ ← advance
          return .super token.pos
      | "new" => construction expression limit
      | _ => unexpected "expression"
  | .operator =>
      match token.lexeme with
      | "(" => do
          let _ ← advance
          let inner ← expression
          let _ ← expectOperator ")"
          return inner
      | "[" => do
          let _ ← advance
          return .list (← enclosed "]" expression limit) token.pos
      | "\x7b" => do
          let _ ← advance
          return .dict (← enclosed "\x7d" (property expression) limit) token.pos
      | _ => unexpected "expression"
  | _ => unexpected "expression"

-- Reads properties, indexes and calls behind what they apply to.
def suffixes (pos : Pos) : Nat → Expr → Parser Expr
  | 0, _ => exhausted
  | rounds + 1, object => do
      if ← eatOperator "." then
        let name ← propertyName
        suffixes pos rounds (.member object name pos)
      else if ← eatOperator "[" then
        let index ← expression
        let _ ← expectOperator "]"
        suffixes pos rounds (.index object index pos)
      else if ← eatOperator "(" then
        let args ← enclosed ")" expression limit
        suffixes pos rounds (.call object args pos)
      else return object

def suffixed : Parser Expr := do
  let pos ← position
  let object ← primary expression limit
  suffixes expression limit pos limit object

-- Reads an operand with the operators in front of it.
def unary : Nat → Parser Expr
  | 0 => exhausted
  | rounds + 1 => do
      let pos ← position
      match ← oneOperator unaryOps with
      | some op => return .unary op (← unary rounds) pos
      | none => suffixed expression limit

-- Reads a power. It is right-associative.
def power : Nat → Parser Expr
  | 0 => exhausted
  | rounds + 1 => do
      let pos ← position
      let base ← unary expression limit limit
      if ← eatOperator "**" then return .binary .power base (← power rounds) pos
      else return base

def product : Parser Expr :=
  leftAssoc (oneOperator multiplicativeOps) (power expression limit limit) .binary limit

def sum : Parser Expr :=
  leftAssoc (oneOperator additiveOps) (product expression limit) .binary limit

def relation : Parser Expr :=
  leftAssoc (oneOperator relationalOps) (sum expression limit) comparison limit

def equality : Parser Expr :=
  leftAssoc (oneOperator equalityOps) (relation expression limit) comparison limit

def conjunction : Parser Expr :=
  leftAssoc (oneOperator [("&&", BoolOp.and)]) (equality expression limit) .logical limit

def disjunction : Parser Expr :=
  leftAssoc (oneOperator [("||", BoolOp.or)]) (conjunction expression limit) .logical limit

-- Reads an expression with its conditional form, `test ? a : b`.
def conditional : Parser Expr := do
  let pos ← position
  let test ← disjunction expression limit
  if ← eatOperator "?" then
    let consequent ← expression
    let _ ← expectOperator ":"
    let alternate ← expression
    return .conditional test consequent alternate pos
  else return test

end Levels

-- Reads an expression of fewer tokens than the limit. What stands in brackets has fewer still.
def expression : Nat → Parser Expr
  | 0 => exhausted
  | limit + 1 => conditional (expression limit) (limit + 1)

-- Reads one expression off the front of a list of tokens.
def readExpr (tokens : List Token) : Except Failure Expr :=
  let stream := TokenStream.plain tokens
  (expression stream.size).run' stream

end Diglot.Braced
