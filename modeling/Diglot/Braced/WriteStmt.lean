import Diglot.Braced.Hoisting
import Diglot.Braced.WriteExpr
import Diglot.Fragment

namespace Diglot.Braced

-- The remark in place of something that this notation cannot say.
def placeholder (what : String) : Phrase :=
  ⟨"/* Unhandled PythonScript construct: " ++ what ++ " */", 1⟩

-- The line that declares the names of a scope, if there are any.
def declareLocals (body : List Stmt) (params : List Parameter) : Fragment :=
  match hoisted body params with
  | [] => .empty
  | names => .line ("let " ++ ", ".intercalate names ++ ";")

-- The target of an assignment. An index that counts from the end is made one from the start, since
-- what `at` gives cannot be assigned to.
def writeTarget (inMethod : Bool) (target : Expr) : String :=
  match target with
  | .index object index _ =>
      match negatedLiteral? index with
      | some literal =>
          let text := writeOperand inMethod Level.atom object
          text ++ "[" ++ text ++ ".length - " ++ literal ++ "]"
      | none => writeExpr inMethod target
  | _ => writeExpr inMethod target

-- A chain of targets and the value. Without either value or declaration the value is undefined.
def writeAssign (inMethod : Bool) (targets : List Expr) (value : Option Expr)
    (declaration : Option Declaration) : String :=
  let text := " = ".intercalate
    (targets.map (writeTarget inMethod) ++ (value.map (writeExpr inMethod)).toList)
  match declaration with
  | some .constWord => "const " ++ text
  | some .varWord => "var " ++ text
  | some .letWord => "let " ++ text
  | none => if value.isNone then text ++ " = undefined" else text

def writeAugAssign (inMethod : Bool) (target : Expr) (op : BinaryOp) (value : Expr) : String :=
  let text := writeTarget inMethod target
  match op with
  | .floorDivide =>
      text ++ " = Math.floor(" ++ text ++ " / " ++ writeOperand inMethod Level.unary value ++ ")"
  | op => text ++ " " ++ binarySymbol op ++ "= " ++ writeExpr inMethod value

-- A simple statement without its semicolon, as it also stands in the head of a loop.
def writeInline (ctx : Context) (stmt : Stmt) : Phrase :=
  match stmt with
  | .assign targets value declaration _ =>
      .plain (writeAssign ctx.inMethod targets value declaration)
  | .augAssign target op value _ => .plain (writeAugAssign ctx.inMethod target op value)
  | .print args _ =>
      .plain ("console.log(" ++ ", ".intercalate (writeExprs ctx.inMethod args) ++ ")")
  | .expr value _ => .plain (writeExpr ctx.inMethod value)
  | other => placeholder other.kindName

-- The last of the names that dots divide.
def lastName (name : String) : String :=
  String.ofList (name.toList.reverse.takeWhile (· != '.')).reverse

def importedText (imported : ImportedName) : String :=
  match imported.otherName with
  | some otherName => imported.name ++ ": " ++ otherName
  | none => imported.name

def writeImport (module : String) (kind : ImportKind) : String :=
  match kind with
  | .whole otherName =>
      "const " ++ otherName.getD (lastName module) ++ " = require(" ++ quote module ++ ");"
  | .names imported =>
      "const \x7b " ++ ", ".intercalate (imported.map importedText) ++ " \x7d = require(" ++
        quote module ++ ");"

-- The word that a parameter is written as.
def writeParam (inMethod : Bool) (param : Parameter) : Phrase :=
  match param.kind with
  | .positional =>
      match param.default with
      | some default => .plain (param.name ++ " = " ++ writeExpr inMethod default)
      | none => .plain param.name
  | .rest => .plain ("..." ++ param.name)
  | .keywordCollector => placeholder ("keyword parameter **" ++ param.name)

-- The parameters of a function, with an opening and a closing around them.
def writeParams (inMethod : Bool) (opening : String) (params : List Parameter) (closing : String) :
    Phrase :=
  .listed opening (params.map (writeParam inMethod)) closing

-- The parameters of a method, without the receiver.
def methodParams (params : List Parameter) : List Parameter :=
  match params with
  | first :: rest => if first.name = "self" then rest else params
  | [] => []

-- A function, whose body is written by `inner`. In a class it is a method; in a method it is an
-- arrow function, which keeps the receiver.
def writeFunction (ctx : Context) (name : String) (params : List Parameter) (body : List Stmt)
    (inner : Context → Fragment) : Fragment :=
  if ctx.inClass then
    let params := methodParams params
    let name := if name = "__init__" then "constructor" else name
    .phrase (writeParams ctx.inMethod (name ++ "(") params ") \x7b") ++
      (declareLocals body params ++ inner .methodBody).indent ++ .line "\x7d"
  else if ctx.inMethod then
    .phrase (writeParams ctx.inMethod ("const " ++ name ++ " = (") params ") => \x7b") ++
      (declareLocals body params ++ inner ctx).indent ++ .line "\x7d;"
  else
    .phrase (writeParams ctx.inMethod ("function " ++ name ++ "(") params ") \x7b") ++
      (declareLocals body params ++ inner .toplevel).indent ++ .line "\x7d"

-- The head of a counting loop. Where the direction is not known beforehand, the test looks at the
-- sign of the step.
def rangeHead (inMethod : Bool) (target : String) (start : Option Expr) (stop : Expr)
    (step : Option Expr) : String :=
  let init := "let " ++ target ++ " = " ++ writeOr inMethod "0" start ++ "; "
  let stopText := writeExpr inMethod stop
  match step with
  | none => init ++ target ++ " < " ++ stopText ++ "; " ++ target ++ "++"
  | some step =>
      match step with
      | .unary .negate amount _ =>
          init ++ target ++ " > " ++ stopText ++ "; " ++ target ++ " -= " ++
            writeOperand inMethod Level.unary amount
      | .number literal _ =>
          init ++ target ++ " < " ++ stopText ++ "; " ++ target ++ " += " ++ literal
      | _ =>
          let stepText := writeOperand inMethod (Level.comparison + 1) step
          init ++ stepText ++ " > 0 ? " ++ target ++ " < " ++ stopText ++ " : " ++ target ++
            " > " ++ stopText ++ "; " ++ target ++ " += " ++ stepText

def writeHead (inMethod : Bool) (target : String) : Iteration → String
  | .range start stop step => rangeHead inMethod target start stop step
  | .each iterable => "const " ++ target ++ " of " ++ writeExpr inMethod iterable

-- A clause of a loop, or nothing.
def writeClause (ctx : Context) : Option Stmt → Phrase
  | none => .plain ""
  | some stmt => writeInline ctx stmt

-- A field of a class, if a statement is one.
def writeField? (inMethod : Bool) : Stmt → Option String
  | .assign [.var name pos] (some value) _ _ =>
      some ("static " ++ writeExpr inMethod (.var name pos) ++ " = " ++ writeExpr inMethod value ++
        ";")
  | _ => none

mutual

-- The lines of a statement.
def writeStmt (ctx : Context) : Stmt → Fragment
  | .imports module kind _ => .line (writeImport module kind)
  | .classDef name base body _ =>
      let extension := match base with
        | some base => " extends " ++ base
        | none => ""
      .line ("class " ++ name ++ extension ++ " \x7b") ++ (writeMembers ctx body).indent ++
        .line "\x7d"
  | .functionDef name params body _ =>
      writeFunction ctx name params body fun inner => writeStmts inner body
  | .ifElse condition body elifs orElse _ =>
      .line ("if (" ++ writeExpr ctx.inMethod condition ++ ") \x7b") ++
        (writeStmts ctx body).indent ++ writeElifs ctx elifs ++
        writeOption ctx "\x7d else \x7b" orElse ++ .line "\x7d"
  | .forIn target iteration body _ =>
      .line ("for (" ++ writeHead ctx.inMethod target iteration ++ ") \x7b") ++
        (writeStmts ctx body).indent ++ .line "\x7d"
  | .forClauses init test update body _ =>
      let first := writeClause ctx init
      let last := writeClause ctx update
      .phrase ⟨"for (" ++ first.text ++ "; " ++ writeOr ctx.inMethod "" test ++ "; " ++ last.text ++
          ") \x7b", first.placeholders + last.placeholders⟩ ++
        (writeStmts ctx body).indent ++ .line "\x7d"
  | .whileDo condition body _ =>
      .line ("while (" ++ writeExpr ctx.inMethod condition ++ ") \x7b") ++
        (writeStmts ctx body).indent ++ .line "\x7d"
  | .tryCatch body handler cleanup _ =>
      .line "try \x7b" ++ (writeStmts ctx body).indent ++ writeHandler ctx handler ++
        writeOption ctx "\x7d finally \x7b" cleanup ++ .line "\x7d"
  | .returns (some value) _ => .line ("return " ++ writeExpr ctx.inMethod value ++ ";")
  | .returns none _ => .line "return;"
  | .pass _ => .empty
  | .breaks _ => .line "break;"
  | .continues _ => .line "continue;"
  | .assign targets value declaration pos =>
      .line ((writeInline ctx (.assign targets value declaration pos)).text ++ ";")
  | .augAssign target op value pos =>
      .line ((writeInline ctx (.augAssign target op value pos)).text ++ ";")
  | .print args pos => .line ((writeInline ctx (.print args pos)).text ++ ";")
  | .expr value pos => .line ((writeInline ctx (.expr value pos)).text ++ ";")

def writeStmts (ctx : Context) : List Stmt → Fragment
  | [] => .empty
  | first :: rest => writeStmt ctx first ++ writeStmts ctx rest

-- The members of a class: methods and fields. The values of fields are outside of the class.
def writeMembers (ctx : Context) : List Stmt → Fragment
  | [] => .empty
  | .functionDef name params body _ :: rest =>
      (writeFunction .classBody name params body fun inner => writeStmts inner body) ++
        writeMembers ctx rest
  | .pass _ :: rest => writeMembers ctx rest
  | member :: rest =>
      (match writeField? ctx.inMethod member with
        | some field => .line field
        | none => .phrase (placeholder ("class member " ++ member.kindName))) ++
        writeMembers ctx rest

def writeElifs (ctx : Context) : List (ElifClause Stmt) → Fragment
  | [] => .empty
  | ⟨condition, body, _⟩ :: rest =>
      .line ("\x7d else if (" ++ writeExpr ctx.inMethod condition ++ ") \x7b") ++
        (writeStmts ctx body).indent ++ writeElifs ctx rest

-- A further block behind the given line, if there is one.
def writeOption (ctx : Context) (head : String) : Option (List Stmt) → Fragment
  | none => .empty
  | some body => .line head ++ (writeStmts ctx body).indent

def writeHandler (ctx : Context) : Option (Handler Stmt) → Fragment
  | none => .empty
  | some ⟨name, body, _⟩ =>
      .line ("\x7d catch (" ++ name.getD "e" ++ ") \x7b") ++ (writeStmts ctx body).indent

end

-- The lines of a whole program.
def writeModule (module : Module) : Fragment :=
  declareLocals module.body [] ++ writeStmts .toplevel module.body

end Diglot.Braced
