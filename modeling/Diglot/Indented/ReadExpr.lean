import Diglot.Parser
import Diglot.Indented.Lexer
import Diglot.Indented.Interpolation

namespace Diglot.Indented

open Diglot.Parser

-- Additive operators.
def additiveOps : List (String × BinaryOp) := [("+", .add), ("-", .subtract)]

-- Multiplicative operators.
def multiplicativeOps : List (String × BinaryOp) :=
  [("*", .multiply), ("/", .divide), ("//", .floorDivide), ("%", .modulo)]

-- Signs in front of an operand.
def signOps : List (String × UnaryOp) := [("-", .negate), ("+", .plus)]

-- Comparisons that are operators; `in` and `not in` are words.
def compareOps : List (String × CompareOp) :=
  [("<", .less), (">", .greater), ("<=", .lessEqual), (">=", .greaterEqual), ("==", .equal),
    ("!=", .notEqual)]

-- The node for a keyword that joins two operands.
def joinedBy (keyword : String) (op : BoolOp) : Parser (Option BoolOp) := do
  if ← eatKeyword keyword then return some op else return none

-- Reads the operator of a comparison. `not` is one only together with `in`.
def compareOp? : Parser (Option CompareOp) := do
  match ← oneOperator compareOps with
  | some op => return some op
  | none => do
      if ← eatKeyword "in" then return some .isIn
      else if (← checkKeyword "not") && (← peek 1).any (·.isKeyword "in") then
        let _ ← advance
        let _ ← advance
        return some .notIn
      else return none

-- The key that an expression in front of a colon makes.
def dictKey : Expr → DictKey Expr
  | .string value _ => .literal value
  | .number literal _ => .number literal
  | key => .computed key

section Levels

-- Every level of the grammar is given a reader of embedded expressions, a reader of whole
-- expressions for what stands in brackets, and a limit for its loops.
variable (embedded : List Char → Except Cause Expr) (expression : Parser Expr) (limit : Nat)

-- Reads a key, a colon and a value.
def dictEntry : Parser (DictEntry Expr) := do
  let key ← expression
  let _ ← expectOperator ":"
  let value ← expression
  return ⟨dictKey key, value⟩

-- Reads a literal, a name, or something in brackets.
def primary : Parser Expr := do
  let token ← current
  match token.kind with
  | .number => do
      let _ ← advance
      return .number token.lexeme token.pos
  | .string => do
      let _ ← advance
      return .string token.lexeme token.pos
  | .interpolated => do
      let _ ← advance
      match segments embedded token.lexeme.toList with
      | .ok found => return .interpolated found token.pos
      | .error reason => throw ⟨.invalidInterpolation reason, token.pos⟩
  | .identifier => do
      let _ ← advance
      return .var token.lexeme token.pos
  | .keyword =>
      match token.lexeme with
      | "True" => do
          let _ ← advance
          return .boolean true token.pos
      | "False" => do
          let _ ← advance
          return .boolean false token.pos
      | "None" => do
          let _ ← advance
          return .null token.pos
      | "print" => do
          let _ ← advance
          return .var token.lexeme token.pos
      | _ => unexpected "expression"
  | .operator =>
      match token.lexeme with
      | "(" => do
          let _ ← advance
          let inner ← expression
          let _ ← expectOperator ")"
          return inner
      | "[" => do
          let _ ← advance
          return .list (← enclosed "]" expression limit) token.pos
      | "\x7b" => do
          let _ ← advance
          return .dict (← enclosed "\x7d" (dictEntry expression) limit) token.pos
      | _ => unexpected "expression"
  | _ => unexpected "expression"

-- Reads the rest of a slice behind its first colon.
def sliceRest (object : Expr) (start : Option Expr) (pos : Pos) : Parser Expr := do
  let stop ←
    if (← checkOperator "]") || (← checkOperator ":") then pure none
    else do pure (some (← expression))
  let step ←
    if ← eatOperator ":" then
      if ← checkOperator "]" then pure none else do pure (some (← expression))
    else pure none
  let _ ← expectOperator "]"
  return .slice object start stop step pos

-- Reads an index or a slice behind the opening bracket.
def subscript (object : Expr) (pos : Pos) : Parser Expr := do
  if ← eatOperator ":" then sliceRest expression object none pos
  else
    let first ← expression
    if ← eatOperator ":" then sliceRest expression object (some first) pos
    else
      let _ ← expectOperator "]"
      return .index object first pos

-- Reads attributes, subscripts and calls behind what they apply to.
def suffixes (pos : Pos) : Nat → Expr → Parser Expr
  | 0, _ => exhausted
  | rounds + 1, object => do
      if ← eatOperator "." then
        let name ← identifier
        suffixes pos rounds (.member object name pos)
      else if ← eatOperator "[" then
        let found ← subscript expression object pos
        suffixes pos rounds found
      else if ← eatOperator "(" then
        let args ← enclosed ")" expression limit
        suffixes pos rounds (.call object args pos)
      else return object

def suffixed : Parser Expr := do
  let pos ← position
  let object ← primary embedded expression limit
  suffixes expression limit pos limit object

-- Reads an operand with the signs in front of it.
def signed : Nat → Parser Expr
  | 0 => exhausted
  | rounds + 1 => do
      let pos ← position
      match ← oneOperator signOps with
      | some op => return .unary op (← signed rounds) pos
      | none => suffixed embedded expression limit

-- Reads a power. It is right-associative, and its base may have signs.
def power : Nat → Parser Expr
  | 0 => exhausted
  | rounds + 1 => do
      let pos ← position
      let base ← signed embedded expression limit limit
      if ← eatOperator "**" then return .binary .power base (← power rounds) pos
      else return base

def product : Parser Expr :=
  leftAssoc (oneOperator multiplicativeOps) (power embedded expression limit limit) .binary limit

def sum : Parser Expr :=
  leftAssoc (oneOperator additiveOps) (product embedded expression limit) .binary limit

-- Reads a chain of comparisons. A single `in` or `not in` is a membership test.
def comparison : Parser Expr := do
  let pos ← position
  let left ← sum embedded expression limit
  let links ← whilst compareOp? (fun op => do
    return (⟨op, ← sum embedded expression limit⟩ : Comparison Expr)) limit
  match links with
  | [] => return left
  | [⟨.isIn, right⟩] => return .membership left right false pos
  | [⟨.notIn, right⟩] => return .membership left right true pos
  | links => return .compare left links pos

def negation : Nat → Parser Expr
  | 0 => exhausted
  | rounds + 1 => do
      let pos ← position
      if ← eatKeyword "not" then return .unary .not (← negation rounds) pos
      else comparison embedded expression limit

def conjunction : Parser Expr :=
  leftAssoc (joinedBy "and" .and) (negation embedded expression limit limit) .logical limit

def disjunction : Parser Expr :=
  leftAssoc (joinedBy "or" .or) (conjunction embedded expression limit) .logical limit

-- Reads an expression with its conditional form, `a if test else b`.
def conditional : Parser Expr := do
  let pos ← position
  let consequent ← disjunction embedded expression limit
  if ← eatKeyword "if" then
    let test ← disjunction embedded expression limit
    let _ ← expectKeyword "else"
    let alternate ← expression
    return .conditional test consequent alternate pos
  else return consequent

end Levels

-- Reads an expression of fewer tokens than the limit. What stands in brackets has fewer still.
def expression (embedded : List Char → Except Cause Expr) : Nat → Parser Expr
  | 0 => exhausted
  | limit + 1 => conditional embedded (expression embedded limit) (limit + 1)

-- Reads the source of an embedded expression, which has fewer characters than the limit. The
-- sources that are embedded in it in turn have fewer still.
def embeddedExpr : Nat → List Char → Except Cause Expr
  | 0, _ => .error .exhausted
  | limit + 1, source =>
      let text := trimBlanks source
      if text.isEmpty then .error .emptyEmbedding
      else
        match tokenize (String.ofList text) with
        | .error failure => .error failure.cause
        | .ok tokens =>
            let stream := TokenStream.withLayout tokens
            match expression (embeddedExpr limit) stream.size stream with
            | .error failure => .error failure.cause
            | .ok (found, stream) =>
                let next := (stream.dropWhile (·.kind == .newline)).current
                if next.kind == .eof then .ok found
                else .error (.trailingToken next.kind next.lexeme)

-- The length of the longest lexeme. No embedded source is as long.
def longestLexeme (tokens : List Token) : Nat :=
  tokens.foldl (fun longest token => max longest token.lexeme.length) 0

-- Reads one expression off the front of a list of tokens.
def readExpr (tokens : List Token) : Except Failure Expr :=
  let stream := TokenStream.withLayout tokens
  (expression (embeddedExpr (longestLexeme tokens)) stream.size).run' stream

end Diglot.Indented
