import Diglot.Syntax.Expr
import Diglot.Text.Quote

namespace Diglot.Braced

-- How tightly the kinds of expressions bind, from loose to tight.
namespace Level

def conditional : Nat := 2

def disjunction : Nat := 3

def conjunction : Nat := 4

def comparison : Nat := 7

def unary : Nat := 14

def atom : Nat := 20

end Level

-- How tightly an expression binds once it is written. Arithmetic has its own brackets.
def precedence : Expr → Nat
  | .conditional .. => Level.conditional
  | .logical .or .. => Level.disjunction
  | .logical .and .. => Level.conjunction
  | .compare _ [] _ => Level.comparison
  | .compare _ [⟨.notIn, _⟩] _ => Level.unary
  | .compare _ [⟨.isIn, _⟩] _ => Level.atom
  | .compare _ [_] _ => Level.comparison
  | .compare _ (_ :: _ :: _) _ => Level.conjunction
  | .unary .. => Level.unary
  | .membership _ _ true _ => Level.unary
  | _ => Level.atom

abbrev wrap : Nat → Expr → String → String := Expr.wrap precedence

def binarySymbol : BinaryOp → String
  | .add => "+"
  | .subtract => "-"
  | .multiply => "*"
  | .divide | .floorDivide => "/"
  | .modulo => "%"
  | .power => "**"

def compareSymbol : CompareOp → String
  | .less => "<"
  | .greater => ">"
  | .lessEqual => "<="
  | .greaterEqual => ">="
  | .equal => "==="
  | .notEqual => "!=="
  | .isIn | .notIn => "in"

-- A written comparison. Membership is a question to the container.
def comparisonText (op : CompareOp) (left right : String) : String :=
  match op with
  | .isIn => right ++ ".includes(" ++ left ++ ")"
  | .notIn => "!" ++ right ++ ".includes(" ++ left ++ ")"
  | op => left ++ " " ++ compareSymbol op ++ " " ++ right

-- A written chain of comparisons. All of several hold, each in its own brackets.
def chainText : List String → String
  | [pair] => pair
  | pairs => " && ".intercalate (pairs.map fun pair => "(" ++ pair ++ ")")

-- The number that a minus sign is in front of, as it is written.
def negatedLiteral? : Expr → Option String
  | .unary .negate (.number literal _) _ => some literal
  | _ => none

-- Whether an expression is the base class, `super()` or `super`.
def isSuper : Expr → Bool
  | .call callee args _ => args.isEmpty && callee.var? == some "super"
  | .super _ => true
  | _ => false

def startsUpper (name : String) : Bool := name.toList.head?.any Char.isUpper

-- Text between backticks.
def templateText : List Char → List Char
  | [] => []
  | '\\' :: rest => '\\' :: '\\' :: templateText rest
  | '`' :: rest => '\\' :: '`' :: templateText rest
  | '\n' :: rest => '\\' :: 'n' :: templateText rest
  | '\t' :: rest => '\\' :: 't' :: templateText rest
  | '$' :: rest =>
      if rest.head? == some '{' then '\\' :: '$' :: templateText rest else '$' :: templateText rest
  | c :: rest => c :: templateText rest

-- A member is written under the name that it has in this notation.
def memberName (name : String) : String := if name = "append" then "push" else name

mutual

-- The text of an expression. In a method, `self` is the receiver.
def writeExpr (inMethod : Bool) : Expr → String
  | .binary op left right _ =>
      let leftText := writeExpr inMethod left
      let rightText := writeExpr inMethod right
      match op with
      | .floorDivide =>
          "Math.floor(" ++ wrap Level.unary left leftText ++ " / " ++
            wrap Level.unary right rightText ++ ")"
      | .power =>
          "(" ++ wrap (Level.unary + 1) left leftText ++ " ** " ++
            wrap Level.unary right rightText ++ ")"
      | op =>
          "(" ++ wrap Level.unary left leftText ++ " " ++ binarySymbol op ++ " " ++
            wrap Level.unary right rightText ++ ")"
  | .unary op operand _ =>
      let text := writeExpr inMethod operand
      match op with
      | .not => "!" ++ wrap Level.unary operand text
      | .negate => "-" ++ wrap (Level.unary + 1) operand text
      | .plus => "+" ++ wrap (Level.unary + 1) operand text
  | .logical .and left right _ =>
      wrap Level.conjunction left (writeExpr inMethod left) ++ " && " ++
        wrap (Level.conjunction + 1) right (writeExpr inMethod right)
  | .logical .or left right _ =>
      wrap Level.disjunction left (writeExpr inMethod left) ++ " || " ++
        wrap (Level.disjunction + 1) right (writeExpr inMethod right)
  | .compare left comparisons _ =>
      chainText (writePairs inMethod (wrap (Level.comparison + 1) left (writeExpr inMethod left))
        comparisons)
  | .conditional test consequent alternate _ =>
      wrap Level.disjunction test (writeExpr inMethod test) ++ " ? " ++
        wrap Level.conditional consequent (writeExpr inMethod consequent) ++ " : " ++
        wrap Level.conditional alternate (writeExpr inMethod alternate)
  | .membership element container negated _ =>
      (if negated then "!" else "") ++ wrap Level.atom container (writeExpr inMethod container) ++
        ".includes(" ++ writeExpr inMethod element ++ ")"
  | .index object index _ =>
      let objectText := wrap Level.atom object (writeExpr inMethod object)
      let indexText := writeExpr inMethod index
      match negatedLiteral? index with
      | some literal => objectText ++ ".at(-" ++ literal ++ ")"
      | none => objectText ++ "[" ++ indexText ++ "]"
  | .slice object start stop step _ =>
      let objectText := wrap Level.atom object (writeExpr inMethod object)
      let sliced :=
        objectText ++ ".slice(" ++ writeOr inMethod "0" start ++ ", " ++
          writeOr inMethod (objectText ++ ".length") stop ++ ")"
      match step with
      | none => sliced
      | some step =>
          sliced ++ ".filter((_, i) => i % " ++ wrap Level.unary step (writeExpr inMethod step) ++
            " === 0)"
  | .member object name _ =>
      if isSuper object then "super." ++ memberName name
      else wrap Level.atom object (writeExpr inMethod object) ++ "." ++ memberName name
  | .call callee args _ =>
      let calleeText := wrap Level.atom callee (writeExpr inMethod callee)
      let bracket := "(" ++ ", ".intercalate (writeExprs inMethod args) ++ ")"
      match callee with
      | .var name _ =>
          if name = "print" then "console.log" ++ bracket
          else if startsUpper name then "new " ++ name ++ bracket
          else calleeText ++ bracket
      | .member object name _ =>
          if name = "__init__" && isSuper object then "super" ++ bracket
          else calleeText ++ bracket
      | _ => calleeText ++ bracket
  | .construct callee args _ =>
      "new " ++ wrap Level.atom callee (writeExpr inMethod callee) ++ "(" ++
        ", ".intercalate (writeExprs inMethod args) ++ ")"
  | .list elements _ => "[" ++ ", ".intercalate (writeExprs inMethod elements) ++ "]"
  | .dict entries _ =>
      if entries.isEmpty then "\x7b\x7d"
      else "\x7b " ++ ", ".intercalate (writeEntries inMethod entries) ++ " \x7d"
  | .interpolated segments _ => "`" ++ String.join (writeSegments inMethod segments) ++ "`"
  | .template raw _ => "`" ++ raw ++ "`"
  | .number literal _ => literal
  | .string value _ => quote value
  | .boolean value _ => if value then "true" else "false"
  | .null _ => "null"
  | .var name _ => if inMethod && name = "self" then "this" else name
  | .this _ => "this"
  | .super _ => "super"

def writeExprs (inMethod : Bool) : List Expr → List String
  | [] => []
  | first :: rest => writeExpr inMethod first :: writeExprs inMethod rest

-- The text of an expression, or another where there is none.
def writeOr (inMethod : Bool) (absent : String) : Option Expr → String
  | none => absent
  | some expr => writeExpr inMethod expr

-- The comparisons of a chain, each with the operand that stands left of it.
def writePairs (inMethod : Bool) (left : String) : List (Comparison Expr) → List String
  | [] => []
  | ⟨op, right⟩ :: rest =>
      let rightText := wrap (Level.comparison + 1) right (writeExpr inMethod right)
      comparisonText op left rightText :: writePairs inMethod rightText rest

def writeEntries (inMethod : Bool) : List (DictEntry Expr) → List String
  | [] => []
  | ⟨.literal text, value⟩ :: rest =>
      (quote text ++ ": " ++ writeExpr inMethod value) :: writeEntries inMethod rest
  | ⟨.number text, value⟩ :: rest =>
      (text ++ ": " ++ writeExpr inMethod value) :: writeEntries inMethod rest
  | ⟨.computed key, value⟩ :: rest =>
      ("[" ++ writeExpr inMethod key ++ "]: " ++ writeExpr inMethod value) ::
        writeEntries inMethod rest

def writeSegments (inMethod : Bool) : List (Segment Expr) → List String
  | [] => []
  | .text value :: rest =>
      String.ofList (templateText value.toList) :: writeSegments inMethod rest
  | .expr value :: rest =>
      ("$\x7b" ++ writeExpr inMethod value ++ "\x7d") :: writeSegments inMethod rest

end

-- The text of an operand, in brackets if it binds less tightly than needed.
def writeOperand (inMethod : Bool) (needed : Nat) (expr : Expr) : String :=
  wrap needed expr (writeExpr inMethod expr)

end Diglot.Braced
