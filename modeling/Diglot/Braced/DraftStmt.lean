import Diglot.Braced.WriteStmt
import Diglot.Draft

namespace Diglot.Braced

open Drafting

-- Writes the line that declares the names of a scope, if there are any.
def draftLocals (body : List Stmt) (params : List Parameter) : Drafting Unit :=
  match hoisted body params with
  | [] => pure ()
  | names => line (.plain ("let " ++ ", ".intercalate names ++ ";"))

-- Writes a function, whose body is written by `inner`.
def draftFunction (ctx : Context) (name : String) (params : List Parameter) (body : List Stmt)
    (inner : Context → Drafting Unit) : Drafting Unit :=
  if ctx.inClass then do
    let params := methodParams params
    let name := if name = "__init__" then "constructor" else name
    line (writeParams ctx.inMethod (name ++ "(") params ") \x7b")
    indent
    draftLocals body params
    inner .methodBody
    dedent
    line (.plain "\x7d")
  else if ctx.inMethod then do
    line (writeParams ctx.inMethod ("const " ++ name ++ " = (") params ") => \x7b")
    indent
    draftLocals body params
    inner ctx
    dedent
    line (.plain "\x7d;")
  else do
    line (writeParams ctx.inMethod ("function " ++ name ++ "(") params ") \x7b")
    indent
    draftLocals body params
    inner .toplevel
    dedent
    line (.plain "\x7d")

-- Writes a block, whose statements are written by `inner`.
def draftBlock (inner : Drafting Unit) : Drafting Unit := do
  indent
  inner
  dedent

-- Writes a member of a class that is no method: a field, or a remark in place of what is none.
def draftField (inMethod : Bool) (member : Stmt) : Drafting Unit :=
  match writeField? inMethod member with
  | some field => line (.plain field)
  | none => line (placeholder ("class member " ++ member.kindName))

mutual

-- Writes a statement to a draft.
def draftStmt (ctx : Context) : Stmt → Drafting Unit
  | .imports module kind _ => line (.plain (writeImport module kind))
  | .classDef name base body _ => do
      let extension := match base with
        | some base => " extends " ++ base
        | none => ""
      line (.plain ("class " ++ name ++ extension ++ " \x7b"))
      indent
      draftMembers ctx body
      dedent
      line (.plain "\x7d")
  | .functionDef name params body _ =>
      draftFunction ctx name params body fun inner => draftStmts inner body
  | .ifElse condition body elifs orElse _ => do
      line (.plain ("if (" ++ writeExpr ctx.inMethod condition ++ ") \x7b"))
      draftBlock (draftStmts ctx body)
      draftElifs ctx elifs
      draftOption ctx "\x7d else \x7b" orElse
      line (.plain "\x7d")
  | .forIn target iteration body _ => do
      line (.plain ("for (" ++ writeHead ctx.inMethod target iteration ++ ") \x7b"))
      draftBlock (draftStmts ctx body)
      line (.plain "\x7d")
  | .forClauses init test update body _ => do
      let first := writeClause ctx init
      let last := writeClause ctx update
      line ⟨"for (" ++ first.text ++ "; " ++ writeOr ctx.inMethod "" test ++ "; " ++ last.text ++
        ") \x7b", first.placeholders + last.placeholders⟩
      draftBlock (draftStmts ctx body)
      line (.plain "\x7d")
  | .whileDo condition body _ => do
      line (.plain ("while (" ++ writeExpr ctx.inMethod condition ++ ") \x7b"))
      draftBlock (draftStmts ctx body)
      line (.plain "\x7d")
  | .tryCatch body handler cleanup _ => do
      line (.plain "try \x7b")
      draftBlock (draftStmts ctx body)
      draftHandler ctx handler
      draftOption ctx "\x7d finally \x7b" cleanup
      line (.plain "\x7d")
  | .returns (some value) _ => line (.plain ("return " ++ writeExpr ctx.inMethod value ++ ";"))
  | .returns none _ => line (.plain "return;")
  | .pass _ => pure ()
  | .breaks _ => line (.plain "break;")
  | .continues _ => line (.plain "continue;")
  | stmt => line (.plain ((writeInline ctx stmt).text ++ ";"))

def draftStmts (ctx : Context) : List Stmt → Drafting Unit
  | [] => pure ()
  | first :: rest => do
      draftStmt ctx first
      draftStmts ctx rest

-- Writes the members of a class: methods and fields.
def draftMembers (ctx : Context) : List Stmt → Drafting Unit
  | [] => pure ()
  | member :: rest => do
      match member with
      | .functionDef .. => draftStmt .classBody member
      | .pass _ => pure ()
      | _ => draftField ctx.inMethod member
      draftMembers ctx rest

def draftElifs (ctx : Context) : List (ElifClause Stmt) → Drafting Unit
  | [] => pure ()
  | ⟨condition, body, _⟩ :: rest => do
      line (.plain ("\x7d else if (" ++ writeExpr ctx.inMethod condition ++ ") \x7b"))
      draftBlock (draftStmts ctx body)
      draftElifs ctx rest

-- Writes a further block behind the given line, if there is one.
def draftOption (ctx : Context) (head : String) : Option (List Stmt) → Drafting Unit
  | none => pure ()
  | some body => do
      line (.plain head)
      draftBlock (draftStmts ctx body)

def draftHandler (ctx : Context) : Option (Handler Stmt) → Drafting Unit
  | none => pure ()
  | some ⟨name, body, _⟩ => do
      line (.plain ("\x7d catch (" ++ name.getD "e" ++ ") \x7b"))
      draftBlock (draftStmts ctx body)

end

-- Writes a whole program.
def draftModule (module : Module) : Drafting Unit := do
  draftLocals module.body []
  draftStmts .toplevel module.body

end Diglot.Braced
