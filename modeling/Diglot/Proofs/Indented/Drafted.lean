import Diglot.Indented.DraftStmt
import Diglot.Proofs.Drafting
import Diglot.Proofs.Indented.Lowering

namespace Diglot.Indented

open Drafting

variable {ctx : Context} {draft : Draft} {body : List Stmt} {stmt : Stmt} {last : Option Stmt}

-- Every statement is written as a line at least.
theorem lines_writeStmt_ne_nil (ctx : Context) (update : Option Update) (stmt : Stmt) :
    (writeStmt ctx update stmt).lines ≠ [] := by
  cases stmt with
  | forClauses init test last body pos =>
      rw [writeStmt_forClauses]
      simp [Fragment.phrase]
  | returns value pos => cases value <;> simp [writeStmt, Fragment.phrase, Fragment.line]
  | _ => simp [writeStmt, Fragment.phrase, Fragment.line]

theorem lines_writeStmts_eq_nil_iff {update : Option Update} :
    (writeStmts ctx update body).lines = [] ↔ body = [] := by
  cases body with
  | nil => simp [writeStmts, Fragment.empty]
  | cons first rest => simp [writeStmts, lines_writeStmt_ne_nil]

-- What may be the update of a loop is one line, whatever loop is around it.
theorem appends_clause (h : isClause stmt = true) :
    Appends (draftStmt ctx stmt) draft (writeStmt ctx none stmt) := by
  cases stmt with
  | assign targets value declaration pos | augAssign target op value pos | expr value pos =>
      rw [draftStmt, writeStmt]
      exact appends_line _
  | _ => cases h

-- A statement is written to a draft as its lines. They depend on the draft by the update of its
-- innermost loop.
def Drafted (stmt : Stmt) : Prop :=
  ∀ ctx draft, draft.update.all isClause = true →
    Appends (draftStmt ctx stmt) draft (writeStmt ctx (updateLines draft.update) stmt)

theorem appends_stmts (h : ∀ stmt ∈ body, Drafted stmt) (ctx : Context) (draft : Draft)
    (hupdate : draft.update.all isClause = true) :
    Appends (draftStmts ctx body) draft (writeStmts ctx (updateLines draft.update) body) := by
  induction body generalizing draft with
  | nil =>
      rw [draftStmts, writeStmts]
      exact appends_nothing
  | cons first rest ih =>
      obtain ⟨hfirst, hrest⟩ := List.forall_mem_cons.mp h
      rw [draftStmts, writeStmts]
      exact (hfirst ctx draft hupdate).then (ih hrest _ hupdate)

theorem appends_block (h : ∀ stmt ∈ body, Drafted stmt) (ctx : Context) (draft : Draft)
    (hupdate : draft.update.all isClause = true) :
    Appends (draftBlock ctx body) draft
      (writeBlock body (writeStmts ctx (updateLines draft.update) body)) := by
  have hbody := appends_stmts h ctx draft.deeper hupdate
  have hgrown := draft.deeper.utf8ByteSize_append_eq_iff
    (writeStmts ctx (updateLines draft.deeper.update) body)
  rw [lines_writeStmts_eq_nil_iff] at hgrown
  rw [Appends, draftBlock, bind_of_run run_indent, bind_of_run run_written, bind_of_run hbody,
    bind_of_run run_written]
  cases body with
  | nil =>
      rw [if_pos (hgrown.mpr rfl), writeStmts, Draft.append_empty, bind_of_run (appends_line _)]
      exact run_dedent
  | cons first rest =>
      rw [if_neg fun hsame => List.cons_ne_nil _ _ (hgrown.mp hsame)]
      exact run_dedent

theorem appends_loop (h : ∀ stmt ∈ body, Drafted stmt) (ctx : Context) (draft : Draft) :
    Appends (draftLoop ctx body) draft (writeBlock body (writeStmts ctx none body)) := by
  have hbody := appends_block h ctx (draft.inLoop none) rfl
  rw [Appends, draftLoop, bind_of_run (run_enterLoop none), bind_of_run hbody, run_leaveLoop]
  rfl

theorem appends_elifs {elifs : List (ElifClause Stmt)}
    (h : ∀ stmt ∈ elifs.flatMap (·.body), Drafted stmt) (ctx : Context) (draft : Draft)
    (hupdate : draft.update.all isClause = true) :
    Appends (draftElifs ctx elifs) draft (writeElifs ctx (updateLines draft.update) elifs) := by
  induction elifs generalizing draft with
  | nil =>
      rw [draftElifs, writeElifs]
      exact appends_nothing
  | cons first rest ih =>
      obtain ⟨condition, body, pos⟩ := first
      obtain ⟨hbody, hrest⟩ := List.forall_mem_append.mp (List.flatMap_cons ▸ h)
      rw [draftElifs, writeElifs, Fragment.append_assoc]
      exact .then (appends_line _) (.then (appends_block hbody ctx _ hupdate) (ih hrest _ hupdate))

theorem appends_option {body : Option (List Stmt)} (h : ∀ stmt ∈ body.getD [], Drafted stmt)
    (head : String) (ctx : Context) (draft : Draft) (hupdate : draft.update.all isClause = true) :
    Appends (draftOption ctx head body) draft
      (writeOption ctx (updateLines draft.update) head body) := by
  cases body with
  | none =>
      rw [draftOption, writeOption]
      exact appends_nothing
  | some body =>
      rw [draftOption, writeOption]
      exact .then (appends_line _) (appends_block h ctx _ hupdate)

theorem appends_handler {handler : Option (Handler Stmt)}
    (h : ∀ stmt ∈ (handler.map (·.body)).getD [], Drafted stmt) (ctx : Context) (draft : Draft)
    (hupdate : draft.update.all isClause = true) :
    Appends (draftHandler ctx handler) draft
      (writeHandler ctx (updateLines draft.update) handler) := by
  cases handler with
  | none =>
      rw [draftHandler, writeHandler]
      exact appends_nothing
  | some handler =>
      obtain ⟨name, body, pos⟩ := handler
      rw [draftHandler, writeHandler]
      exact .then (appends_line _) (appends_block h ctx _ hupdate)

theorem appends_optionalClause {clause : Option Stmt} (h : ∀ stmt ∈ clause.toList, Drafted stmt)
    (ctx : Context) (draft : Draft) (hupdate : draft.update.all isClause = true) :
    Appends (draftClause ctx clause) draft
      (writeInit ctx (updateLines draft.update) clause) := by
  cases clause with
  | none =>
      rw [draftClause, writeInit]
      exact appends_nothing
  | some stmt =>
      rw [draftClause, writeInit]
      exact h stmt (by simp) ctx draft hupdate

theorem appends_ending (h : ∀ stmt ∈ last.toList, Drafted stmt) (body : List Stmt) (ctx : Context)
    (draft : Draft) (hupdate : draft.update.all isClause = true) :
    Appends (draftEnding ctx last body) draft
      (last.elim (if body.isEmpty then .line "pass" else .empty)
        (writeStmt ctx (updateLines draft.update))) := by
  cases last with
  | some last =>
      rw [draftEnding]
      exact h last (by simp) ctx draft hupdate
  | none =>
      rw [draftEnding]
      cases body with
      | nil => exact appends_line _
      | cons first rest => exact appends_nothing

-- The update of a loop is written at the end of its body, when the loop has already been left, and
-- so as a statement of the loop around.
theorem appends_rounds (hbody : ∀ stmt ∈ body, Drafted stmt)
    (hending : ∀ stmt ∈ last.toList, Drafted stmt) (hlast : last.all isClause = true)
    (ctx : Context) (draft : Draft) (hupdate : draft.update.all isClause = true) :
    Appends
      (do
        indent
        enterLoop last
        draftStmts ctx body
        leaveLoop
        draftEnding ctx last body
        dedent)
      draft
      (writeStmts ctx (updateLines last) body ++
        last.elim (if body.isEmpty then .line "pass" else .empty)
          (writeStmt ctx (updateLines draft.update))).indent := by
  have hbody := appends_stmts hbody ctx (draft.deeper.inLoop last) hlast
  rw [Draft.update_inLoop] at hbody
  have hending := appends_ending hending body ctx
    (draft.deeper.append (writeStmts ctx (updateLines last) body)) hupdate
  rw [Appends, bind_of_run run_indent, bind_of_run (run_enterLoop last), bind_of_run hbody,
    bind_of_run (run_leaveLoop last), bind_of_run hending, Draft.append_append]
  exact run_dedent

theorem drafted_forClauses {init : Option Stmt}
    (h : ∀ stmt ∈ init.toList ++ last.toList ++ body, Drafted stmt)
    (hlast : last.all isClause = true) (test : Option Expr) (pos : Pos) :
    Drafted (.forClauses init test last body pos) := by
  intro ctx draft hupdate
  simp only [List.forall_mem_append] at h
  obtain ⟨⟨hinit, hending⟩, hbody⟩ := h
  rw [writeStmt_forClauses, Fragment.append_assoc]
  cases test with
  | none | some test =>
      rw [draftStmt]
      exact .then (appends_optionalClause hinit ctx draft hupdate)
        (.then (appends_line _) (appends_rounds hbody hending hlast ctx _ hupdate))

theorem drafted_continues (pos : Pos) : Drafted (.continues pos) := by
  intro ctx draft hupdate
  rw [Appends, draftStmt, bind_of_run run_innermostUpdate]
  cases hdraft : draft.update with
  | none =>
      rw [draftClause]
      exact Appends.then appends_nothing (appends_line _)
  | some update =>
      have hclause : isClause update = true := by simpa [hdraft] using hupdate
      rw [draftClause]
      exact Appends.then (appends_clause hclause) (appends_line _)

-- Induction on the statement.
theorem drafted_of_clausal (h : stmt.Clausal) : Drafted stmt := by
  induction stmt, h using Stmt.all_induct with
  | step stmt hclauses _ hchildren =>
      cases stmt with
      | forClauses init test last body pos =>
          refine drafted_forClauses hchildren ?_ test pos
          cases last with
          | none => rfl
          | some last => exact List.all_eq_true.mp hclauses last (by simp [Stmt.clauses])
      | continues pos => exact drafted_continues pos
      | classDef name base body pos =>
          intro ctx draft hupdate
          cases base with
          | none | some base =>
              rw [draftStmt, writeStmt]
              exact .then (appends_line _) (appends_block hchildren .classBody _ hupdate)
      | functionDef name params body pos =>
          intro ctx draft hupdate
          rw [draftStmt, writeStmt]
          exact .then (appends_line _) (appends_block hchildren (functionContext ctx) _ hupdate)
      | forIn target iteration body pos | whileDo condition body pos =>
          intro ctx draft hupdate
          rw [draftStmt, writeStmt]
          exact .then (appends_line _) (appends_loop hchildren ctx _)
      | ifElse condition body elifs orElse pos =>
          intro ctx draft hupdate
          simp only [Stmt.children, List.forall_mem_append] at hchildren
          obtain ⟨⟨hbody, helifs⟩, horElse⟩ := hchildren
          rw [draftStmt, writeStmt, Fragment.append_assoc, Fragment.append_assoc]
          exact .then (appends_line _) (.then (appends_block hbody ctx _ hupdate)
            (.then (appends_elifs helifs ctx _ hupdate) (appends_option horElse _ ctx _ hupdate)))
      | tryCatch body handler cleanup pos =>
          intro ctx draft hupdate
          simp only [Stmt.children, List.forall_mem_append] at hchildren
          obtain ⟨⟨hbody, hhandler⟩, hcleanup⟩ := hchildren
          rw [draftStmt, writeStmt, Fragment.append_assoc, Fragment.append_assoc]
          exact .then (appends_line _) (.then (appends_block hbody ctx _ hupdate)
            (.then (appends_handler hhandler ctx _ hupdate) (appends_option hcleanup _ ctx _ hupdate)))
      | returns value pos =>
          intro ctx draft _
          cases value with
          | none | some value =>
              rw [draftStmt, writeStmt]
              exact appends_line _
      | _ =>
          intro ctx draft _
          rw [draftStmt, writeStmt]
          exact appends_line _

end Diglot.Indented
