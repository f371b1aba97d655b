import Diglot.Braced.DraftStmt
import Diglot.Proofs.Drafting
import Diglot.Proofs.Statements

namespace Diglot.Braced

open Drafting

variable {body : List Stmt}

-- A statement is written to any draft as its lines.
def Drafted (stmt : Stmt) : Prop :=
  ∀ ctx draft, Appends (draftStmt ctx stmt) draft (writeStmt ctx stmt)

theorem appends_stmts (h : ∀ stmt ∈ body, Drafted stmt) (ctx : Context) (draft : Draft) :
    Appends (draftStmts ctx body) draft (writeStmts ctx body) := by
  induction body generalizing draft with
  | nil => exact appends_nothing
  | cons first rest ih =>
      obtain ⟨hfirst, hrest⟩ := List.forall_mem_cons.mp h
      rw [draftStmts, writeStmts]
      exact .then (hfirst ctx draft) (ih hrest _)

theorem appends_block (h : ∀ stmt ∈ body, Drafted stmt) (ctx : Context) (draft : Draft) :
    Appends (draftBlock (draftStmts ctx body)) draft (writeStmts ctx body).indent := by
  rw [Appends, draftBlock, bind_of_run run_indent, bind_of_run (appends_stmts h ctx _)]
  exact run_dedent

theorem appends_elifs {elifs : List (ElifClause Stmt)}
    (h : ∀ stmt ∈ elifs.flatMap (·.body), Drafted stmt) (ctx : Context) (draft : Draft) :
    Appends (draftElifs ctx elifs) draft (writeElifs ctx elifs) := by
  induction elifs generalizing draft with
  | nil => exact appends_nothing
  | cons first rest ih =>
      obtain ⟨condition, body, pos⟩ := first
      obtain ⟨hbody, hrest⟩ := List.forall_mem_append.mp (List.flatMap_cons ▸ h)
      rw [draftElifs, writeElifs, Fragment.append_assoc]
      exact .then (appends_line _) (.then (appends_block hbody ctx _) (ih hrest _))

theorem appends_option {body : Option (List Stmt)} (h : ∀ stmt ∈ body.getD [], Drafted stmt)
    (head : String) (ctx : Context) (draft : Draft) :
    Appends (draftOption ctx head body) draft (writeOption ctx head body) := by
  cases body with
  | none => exact appends_nothing
  | some body => exact .then (appends_line _) (appends_block h ctx _)

theorem appends_handler {handler : Option (Handler Stmt)}
    (h : ∀ stmt ∈ (handler.map (·.body)).getD [], Drafted stmt) (ctx : Context) (draft : Draft) :
    Appends (draftHandler ctx handler) draft (writeHandler ctx handler) := by
  cases handler with
  | none => exact appends_nothing
  | some handler => exact .then (appends_line _) (appends_block h ctx _)

theorem appends_locals (body : List Stmt) (params : List Parameter) (draft : Draft) :
    Appends (draftLocals body params) draft (declareLocals body params) := by
  rw [draftLocals, declareLocals]
  cases hoisted body params with
  | nil => exact appends_nothing
  | cons name names => exact appends_line _

-- A function, whatever it is written as: its head, what it declares and its body, and its end.
theorem appends_scope (h : ∀ stmt ∈ body, Drafted stmt) (head : Phrase) (params : List Parameter)
    (closing : String) (ctx : Context) (draft : Draft) :
    Appends
      (do
        line head
        indent
        draftLocals body params
        draftStmts ctx body
        dedent
        line (.plain closing))
      draft
      (.phrase head ++ (declareLocals body params ++ writeStmts ctx body).indent ++
        .line closing) := by
  rw [Appends, ← Draft.append_append, bind_of_run (appends_line head), bind_of_run run_indent,
    bind_of_run (appends_locals body params _), bind_of_run (appends_stmts h ctx _),
    Draft.append_append, bind_of_run run_dedent, Draft.append_append]
  exact appends_line _

theorem drafted_functionDef (h : ∀ stmt ∈ body, Drafted stmt) (name : String)
    (params : List Parameter) (pos : Pos) : Drafted (.functionDef name params body pos) := by
  intro ctx draft
  rw [draftStmt, writeStmt, draftFunction, writeFunction]
  by_cases hclass : ctx.inClass = true
  · rw [if_pos hclass, if_pos hclass]
    exact appends_scope h _ (methodParams params) _ .methodBody draft
  · rw [if_neg hclass, if_neg hclass]
    by_cases hmethod : ctx.inMethod = true
    · rw [if_pos hmethod, if_pos hmethod]
      exact appends_scope h _ params _ ctx draft
    · rw [if_neg hmethod, if_neg hmethod]
      exact appends_scope h _ params _ .toplevel draft

theorem appends_field (inMethod : Bool) (member : Stmt) (draft : Draft) :
    Appends (draftField inMethod member) draft
      (match writeField? inMethod member with
        | some field => .line field
        | none => .phrase (placeholder ("class member " ++ member.kindName))) := by
  rw [draftField]
  cases writeField? inMethod member with
  | none | some field => exact appends_line _

theorem appends_members (h : ∀ stmt ∈ body, Drafted stmt) (ctx : Context) (draft : Draft) :
    Appends (draftMembers ctx body) draft (writeMembers ctx body) := by
  induction body generalizing draft with
  | nil => exact appends_nothing
  | cons member rest ih =>
      obtain ⟨hmember, hrest⟩ := List.forall_mem_cons.mp h
      cases member with
      | functionDef name params body pos =>
          have hfunction := hmember .classBody draft
          rw [writeStmt] at hfunction
          rw [draftMembers, writeMembers]
          exact hfunction.then (ih hrest _)
      | pass pos => exact ih hrest draft
      | _ => exact .then (appends_field ctx.inMethod _ draft) (ih hrest _)

theorem appends_class (h : ∀ stmt ∈ body, Drafted stmt) (head : Phrase) (ctx : Context)
    (draft : Draft) :
    Appends
      (do
        line head
        indent
        draftMembers ctx body
        dedent
        line (.plain "\x7d"))
      draft (.phrase head ++ (writeMembers ctx body).indent ++ .line "\x7d") := by
  rw [Appends, ← Draft.append_append, bind_of_run (appends_line head), bind_of_run run_indent,
    bind_of_run (appends_members h ctx _), bind_of_run run_dedent, Draft.append_append]
  exact appends_line _

-- Induction on the statement.
theorem drafted (stmt : Stmt) : Drafted stmt := by
  induction stmt using Stmt.children_induct with
  | step stmt hchildren =>
      intro ctx draft
      cases stmt with
      | classDef name base body pos =>
          cases base with
          | none | some base => exact appends_class hchildren _ ctx draft
      | functionDef name params body pos =>
          exact drafted_functionDef hchildren name params pos ctx draft
      | ifElse condition body elifs orElse pos =>
          simp only [Stmt.children, List.forall_mem_append] at hchildren
          obtain ⟨⟨hbody, helifs⟩, horElse⟩ := hchildren
          rw [draftStmt, writeStmt]
          simp only [Fragment.append_assoc]
          exact .then (appends_line _) (.then (appends_block hbody ctx _)
            (.then (appends_elifs helifs ctx _)
              (.then (appends_option horElse _ ctx _) (appends_line _))))
      | tryCatch body handler cleanup pos =>
          simp only [Stmt.children, List.forall_mem_append] at hchildren
          obtain ⟨⟨hbody, hhandler⟩, hcleanup⟩ := hchildren
          rw [draftStmt, writeStmt]
          simp only [Fragment.append_assoc]
          exact .then (appends_line _) (.then (appends_block hbody ctx _)
            (.then (appends_handler hhandler ctx _)
              (.then (appends_option hcleanup _ ctx _) (appends_line _))))
      | forClauses init test update body pos =>
          simp only [Stmt.children, List.forall_mem_append] at hchildren
          rw [draftStmt, writeStmt, Fragment.append_assoc]
          exact .then (appends_line _) (.then (appends_block hchildren.2 ctx _) (appends_line _))
      | forIn target iteration body pos | whileDo condition body pos =>
          rw [draftStmt, writeStmt, Fragment.append_assoc]
          exact .then (appends_line _) (.then (appends_block hchildren ctx _) (appends_line _))
      | returns value pos =>
          cases value with
          | none | some value => exact appends_line _
      | pass pos => exact appends_nothing
      | _ => exact appends_line _

end Diglot.Braced
