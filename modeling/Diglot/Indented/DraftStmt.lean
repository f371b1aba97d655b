import Diglot.Draft
import Diglot.Indented.WriteStmt

namespace Diglot.Context

open Drafting Indented

mutual

-- Writes a statement to a draft. What a loop does at the end of a round is a statement like any
-- other, so that writing never ends if it leaves the round early itself.
def draftStmt (ctx : Context) (stmt : Stmt) : Drafting Unit :=
  match stmt with
  | .imports path kind _ => line (.plain (writeImport path kind))
  | .classDef name base body _ => do
      let bases := match base with
        | some base => "(" ++ base ++ ")"
        | none => ""
      line (.plain ("class " ++ name ++ bases ++ ":"))
      Context.classBody |>.draftBlock body
  | .functionDef name params body _ => do
      line (functionHead ctx name params)
      functionContext ctx |>.draftBlock body
  | .ifElse condition body elifs orElse _ => do
      line (exprPhrase "if " condition ":")
      ctx |>.draftBlock body
      ctx |>.draftElifs elifs
      ctx |>.draftOption "else:" orElse
  | .forIn target iteration body _ => do
      let written := writeIteration iteration
      line ⟨"for " ++ target ++ " in " ++ written.text ++ ":", written.placeholders⟩
      ctx |>.draftLoop body
  | .forClauses init test last body _ => do
      ctx |>.draftClause init
      line (match test with
        | some test => exprPhrase "while " test ":"
        | none => .plain "while True:")
      indent
      enterLoop last
      ctx |>.draftStmts body
      leaveLoop
      ctx |>.draftEnding last body
      dedent
  | .whileDo condition body _ => do
      line (exprPhrase "while " condition ":")
      ctx |>.draftLoop body
  | .tryCatch body handler cleanup _ => do
      line (.plain "try:")
      ctx |>.draftBlock body
      ctx |>.draftHandler handler
      ctx |>.draftOption "finally:" cleanup
  | .returns (some value) _ => line (exprPhrase "return " value "")
  | .returns none _ => line (.plain "return")
  | .assign targets value _ _ =>
      line (.joined (targets.map (exprPhrase "" · " = ") ++ [writeValue value]))
  | .augAssign target op value _ =>
      line ⟨writeExpr target ++ " " ++ binarySymbol op ++ "= " ++ writeExpr value,
        countExpr target + countExpr value⟩
  | .print args _ => line (.listed "print(" (args.map (exprPhrase "" · "")) ")")
  | .expr value _ => line (exprPhrase "" value "")
  | .pass _ => line (.plain "pass")
  | .breaks _ => line (.plain "break")
  | .continues _ => do
      ctx |>.draftClause (← innermostUpdate)
      line (.plain "continue")
partial_fixpoint

def draftStmts (ctx : Context) (body : List Stmt) : Drafting Unit :=
  match body with
  | [] => pure ()
  | first :: rest => do
      ctx |>.draftStmt first
      ctx |>.draftStmts rest
partial_fixpoint

-- Writes a clause of a loop, if there is one.
def draftClause (ctx : Context) (clause : Option Stmt) : Drafting Unit :=
  match clause with
  | none => pure ()
  | some stmt => ctx |>.draftStmt stmt
partial_fixpoint

-- Writes what a loop with three clauses does at the end of a round, behind its body. One that does
-- nothing at all says so.
def draftEnding (ctx : Context) (last : Option Stmt) (body : List Stmt) : Drafting Unit :=
  match last with
  | some last => ctx |>.draftStmt last
  | none => if body.isEmpty then line (.plain "pass") else pure ()
partial_fixpoint

-- Writes an indented block. One in which nothing is written says so.
def draftBlock (ctx : Context) (body : List Stmt) : Drafting Unit := do
  indent
  let start ← written
  ctx |>.draftStmts body
  if (← written) = start then line (.plain "pass") else pure ()
  dedent
partial_fixpoint

-- Writes the body of a loop without three clauses.
def draftLoop (ctx : Context) (body : List Stmt) : Drafting Unit := do
  enterLoop none
  ctx |>.draftBlock body
  leaveLoop
partial_fixpoint

def draftElifs (ctx : Context) (elifs : List (ElifClause Stmt)) : Drafting Unit :=
  match elifs with
  | [] => pure ()
  | ⟨condition, body, _⟩ :: rest => do
      line (exprPhrase "elif " condition ":")
      ctx |>.draftBlock body
      ctx |>.draftElifs rest
partial_fixpoint

-- Writes a further block behind the given line, if there is one.
def draftOption (ctx : Context) (head : String) (body : Option (List Stmt)) : Drafting Unit :=
  match body with
  | none => pure ()
  | some body => do
      line (.plain head)
      ctx |>.draftBlock body
partial_fixpoint

def draftHandler (ctx : Context) (handler : Option (Handler Stmt)) : Drafting Unit :=
  match handler with
  | none => pure ()
  | some ⟨name, body, _⟩ => do
      line (.plain (handlerHead name))
      ctx |>.draftBlock body
partial_fixpoint

end

end Diglot.Context

namespace Diglot.Indented

-- The braced notation has functions of the same names.
export Context (draftStmt draftStmts draftClause draftEnding draftBlock draftLoop draftElifs
  draftOption draftHandler)

-- Writes a whole program.
def draftModule (module : Module) : Drafting Unit := draftStmts .toplevel module.body

end Diglot.Indented
