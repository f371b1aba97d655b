import Diglot.Proofs.Behaviour
import Diglot.Proofs.Statements

namespace Diglot.Indented

mutual

-- A statement without loops of three clauses. `update` is what the innermost loop around it does at
-- the end of each round, if it is such a loop: it is done too wherever a round is left early.
def lowered (update : Option Stmt) : Stmt → List Stmt
  | .ifElse condition body elifs orElse pos =>
      [.ifElse condition (loweredAll update body) (loweredElifs update elifs)
        (loweredOption update orElse) pos]
  | .forIn target iteration body pos => [.forIn target iteration (loweredAll none body) pos]
  | .forClauses init test last body pos =>
      init.toList ++
        [.whileDo (test.getD (.boolean true pos)) (loweredAll last body ++ last.toList) pos]
  | .whileDo condition body pos => [.whileDo condition (loweredAll none body) pos]
  | .continues pos => update.toList ++ [.continues pos]
  | stmt => [stmt]
termination_by structural stmt => stmt

def loweredAll (update : Option Stmt) : List Stmt → List Stmt
  | [] => []
  | first :: rest => lowered update first ++ loweredAll update rest
termination_by structural body => body

def loweredElifs (update : Option Stmt) : List (ElifClause Stmt) → List (ElifClause Stmt)
  | [] => []
  | ⟨condition, body, pos⟩ :: rest =>
      ⟨condition, loweredAll update body, pos⟩ :: loweredElifs update rest
termination_by structural elifs => elifs

def loweredOption (update : Option Stmt) : Option (List Stmt) → Option (List Stmt)
  | none => none
  | some body => some (loweredAll update body)
termination_by structural body => body

end

-- Statements that lowering looks through.
def isLowerable : Stmt → Bool
  | .classDef _ _ _ _ | .functionDef _ _ _ _ | .tryCatch _ _ _ _ => false
  | .forClauses init _ last _ _ => init.all isClause && last.all isClause
  | _ => true

section Shapes

variable (update : Option Stmt)

theorem lowered_ne_nil (stmt : Stmt) : lowered update stmt ≠ [] := by
  cases stmt <;> simp [lowered]

theorem isEmpty_loweredAll (body : List Stmt) :
    (loweredAll update body).isEmpty = body.isEmpty := by
  cases body with
  | nil => rfl
  | cons first rest => simp [loweredAll, lowered_ne_nil]

end Shapes

section Lines

variable {ctx : Context} {update : Option Update} {last : Option Stmt} {stmt : Stmt}
  {body : List Stmt}

-- The lines of what a loop does at the end of each round.
def updateLines (last : Option Stmt) : Option Update :=
  last.map fun last ctx => writeStmt ctx none last

theorem writeStmt_of_isClause (h : isClause stmt = true) :
    writeStmt ctx update stmt = writeStmt ctx none stmt := by
  cases stmt <;> first | rfl | cases h

theorem writeStmts_append (first second : List Stmt) :
    writeStmts ctx update (first ++ second) =
      writeStmts ctx update first ++ writeStmts ctx update second := by
  induction first with
  | nil => rw [List.nil_append, writeStmts, Fragment.empty_append]
  | cons stmt rest ih =>
      rw [List.cons_append, writeStmts, ih, writeStmts, Fragment.append_assoc]

theorem writeStmts_singleton (stmt : Stmt) :
    writeStmts ctx update [stmt] = writeStmt ctx update stmt := by
  rw [writeStmts, writeStmts, Fragment.append_empty]

-- A statement is written as what it is lowered to.
def WritesLowered (stmt : Stmt) : Prop :=
  ∀ ctx last, last.all isClause = true →
    writeStmt ctx (updateLines last) stmt = writeStmts ctx none (lowered last stmt)

variable (hlast : last.all isClause = true)

include hlast

theorem writeStmts_loweredAll (h : ∀ stmt ∈ body, WritesLowered stmt) :
    writeStmts ctx (updateLines last) body = writeStmts ctx none (loweredAll last body) := by
  induction body with
  | nil => rfl
  | cons first rest ih =>
      obtain ⟨hfirst, hrest⟩ := List.forall_mem_cons.mp h
      rw [writeStmts, loweredAll, writeStmts_append, hfirst ctx last hlast, ih hrest]

theorem writeBlock_loweredAll (h : ∀ stmt ∈ body, WritesLowered stmt) :
    writeBlock body (writeStmts ctx (updateLines last) body) =
      writeBlock (loweredAll last body) (writeStmts ctx none (loweredAll last body)) := by
  rw [writeBlock, writeBlock, isEmpty_loweredAll, writeStmts_loweredAll hlast h]

omit hlast in
theorem writeBlock_loweredAll_none (h : ∀ stmt ∈ body, WritesLowered stmt) :
    writeBlock body (writeStmts ctx none body) =
      writeBlock (loweredAll none body) (writeStmts ctx none (loweredAll none body)) := by
  change writeBlock body (writeStmts ctx (updateLines none) body) = _
  exact writeBlock_loweredAll rfl h

theorem writeElifs_lowered {elifs : List (ElifClause Stmt)}
    (h : ∀ stmt ∈ elifs.flatMap (·.body), WritesLowered stmt) :
    writeElifs ctx (updateLines last) elifs = writeElifs ctx none (loweredElifs last elifs) := by
  induction elifs with
  | nil => rfl
  | cons first rest ih =>
      obtain ⟨condition, body, pos⟩ := first
      obtain ⟨hbody, hrest⟩ := List.forall_mem_append.mp (List.flatMap_cons ▸ h)
      rw [writeElifs, loweredElifs, writeElifs, writeBlock_loweredAll hlast hbody, ih hrest]

theorem writeOption_lowered {head : String} {body : Option (List Stmt)}
    (h : ∀ stmt ∈ body.getD [], WritesLowered stmt) :
    writeOption ctx (updateLines last) head body =
      writeOption ctx none head (loweredOption last body) := by
  cases body with
  | none => rfl
  | some body =>
      have hbody : ∀ stmt ∈ body, WritesLowered stmt := h
      rw [writeOption, loweredOption, writeOption, writeBlock_loweredAll hlast hbody]

omit hlast

theorem writeStmts_clause {clause : Option Stmt} (hclause : clause.all isClause = true) :
    writeStmts ctx update clause.toList = writeStmts ctx none clause.toList := by
  cases clause with
  | none => rfl
  | some stmt =>
      rw [Option.toList_some, writeStmts_singleton, writeStmts_singleton,
        writeStmt_of_isClause hclause]

theorem writeInit_eq (init : Option Stmt) :
    writeInit ctx update init = writeStmts ctx update init.toList := by
  cases init with
  | none => rfl
  | some init => exact (writeStmts_singleton init).symm

-- How a loop of three clauses is written.
theorem writeStmt_forClauses (init : Option Stmt) (test : Option Expr) (last : Option Stmt)
    (body : List Stmt) (pos : Pos) :
    writeStmt ctx update (.forClauses init test last body pos) =
      writeInit ctx update init ++
        .phrase (exprPhrase "while " (test.getD (.boolean true pos)) ":") ++
        (writeStmts ctx (updateLines last) body ++
          last.elim (if body.isEmpty then .line "pass" else .empty) (writeStmt ctx update)).indent := by
  cases test <;> cases last <;> rfl

theorem writeBlock_update (hlast : last.all isClause = true)
    (hbody : ∀ stmt ∈ body, WritesLowered stmt) :
    (writeStmts ctx (updateLines last) body ++
      last.elim (if body.isEmpty then .line "pass" else .empty) (writeStmt ctx update)).indent =
      writeBlock (loweredAll last body ++ last.toList)
        (writeStmts ctx none (loweredAll last body ++ last.toList)) := by
  rw [writeStmts_append, writeStmts_loweredAll hlast hbody, writeBlock]
  cases last with
  | some last =>
      have hclause : writeStmt ctx update last = writeStmt ctx none last :=
        writeStmt_of_isClause hlast
      simp [hclause, writeStmts_singleton]
  | none =>
      cases body with
      | nil => rfl
      | cons first rest => simp [loweredAll, lowered_ne_nil, writeStmts]

-- A loop of three clauses is written as what it is lowered to, in whatever loop it stands itself.
theorem writeStmt_forClauses_lowered {init : Option Stmt} (test : Option Expr) (pos : Pos)
    (outer : Option Stmt) (hinit : init.all isClause = true) (hlast : last.all isClause = true)
    (hbody : ∀ stmt ∈ body, WritesLowered stmt) :
    writeStmt ctx update (.forClauses init test last body pos) =
      writeStmts ctx none (lowered outer (.forClauses init test last body pos)) := by
  rw [writeStmt_forClauses, writeInit_eq, writeStmts_clause hinit, writeBlock_update hlast hbody,
    lowered, writeStmts_append init.toList, writeStmts_singleton, writeStmt, Fragment.append_assoc]

theorem writesLowered_step (hstmt : isLowerable stmt = true)
    (h : ∀ child ∈ stmt.children, WritesLowered child) : WritesLowered stmt := by
  intro ctx last hlast
  cases stmt with
  | classDef | functionDef | tryCatch => cases hstmt
  | ifElse condition body elifs orElse pos =>
      obtain ⟨hblocks, horElse⟩ := List.forall_mem_append.mp h
      obtain ⟨hbody, helifs⟩ := List.forall_mem_append.mp hblocks
      rw [lowered, writeStmts_singleton, writeStmt, writeBlock_loweredAll hlast hbody,
        writeElifs_lowered hlast helifs, writeOption_lowered hlast horElse, writeStmt]
  | forIn target iteration body pos | whileDo condition body pos =>
      have hbody : ∀ stmt ∈ body, WritesLowered stmt := h
      rw [lowered, writeStmts_singleton, writeStmt, writeStmt, writeBlock_loweredAll_none hbody]
  | forClauses init test update body pos =>
      obtain ⟨hinit, hupdate⟩ := Bool.and_eq_true_iff.mp hstmt
      exact writeStmt_forClauses_lowered test pos last hinit hupdate
        (List.forall_mem_append.mp h).2
  | continues pos =>
      rw [lowered, writeStmts_append, writeStmts_singleton]
      cases last with
      | none => rfl
      | some stmt => rw [Option.toList_some, writeStmts_singleton]; rfl
  | returns value pos => cases value <;> rfl
  | _ => exact (writeStmts_singleton _).symm

theorem writesLowered (h : stmt.all isLowerable = true) : WritesLowered stmt := by
  induction stmt, h using Stmt.all_induct with
  | step stmt hstmt _ hchildren => exact writesLowered_step hstmt hchildren

end Lines

section Runs

variable {σ ι : Type} (i : Interpretation σ ι) {last : Option Stmt} {body : List Stmt} {s t : σ}
  {trace : List Action} {stmt : Stmt}

open Behaviour

-- A statement runs as what it is lowered to: with the update behind it where it goes on to the next
-- round.
def RunsLowered (stmt : Stmt) : Prop :=
  ∀ last, last.all isClause = true →
    i.runsAll (lowered last stmt) = onContinue (i.runsClause last) (i.runs stmt)

variable {i}

theorem runsAll_loweredAll (hlast : last.all isClause = true)
    (h : ∀ stmt ∈ body, RunsLowered i stmt) :
    i.runsAll (loweredAll last body) = onContinue (i.runsClause last) (i.runsAll body) := by
  induction body with
  | nil => exact (onContinue_eq_self (by rintro _ _ _ ⟨-, -, h⟩; cases h) _).symm
  | cons first rest ih =>
      obtain ⟨hfirst, hrest⟩ := List.forall_mem_cons.mp h
      rw [loweredAll, Interpretation.runsAll_append, hfirst last hlast, ih hrest,
        Interpretation.runsAll, onContinue_seq]

theorem runsOption_lowered (hlast : last.all isClause = true) {body : Option (List Stmt)}
    (h : ∀ stmt ∈ body.getD [], RunsLowered i stmt) :
    i.runsOption (loweredOption last body) =
      onContinue (i.runsClause last) (i.runsOption body) := by
  cases body with
  | none => exact (onContinue_eq_self (by rintro _ _ _ ⟨-, -, h⟩; cases h) _).symm
  | some body => exact runsAll_loweredAll hlast h

theorem runsElifs_lowered (hlast : last.all isClause = true) {elifs : List (ElifClause Stmt)}
    (h : ∀ stmt ∈ elifs.flatMap (·.body), RunsLowered i stmt) (otherwise : Behaviour σ) :
    i.runsElifs (loweredElifs last elifs) (onContinue (i.runsClause last) otherwise) =
      onContinue (i.runsClause last) (i.runsElifs elifs otherwise) := by
  induction elifs with
  | nil => rfl
  | cons first rest ih =>
      obtain ⟨condition, body, pos⟩ := first
      obtain ⟨hbody, hrest⟩ := List.forall_mem_append.mp (List.flatMap_cons ▸ h)
      rw [loweredElifs, Interpretation.runsElifs, runsAll_loweredAll hlast hbody, ih hrest,
        Interpretation.runsElifs, onContinue_choose]

-- In the body of a loop without an update, no update is run.
theorem runsAll_loweredAll_none (h : ∀ stmt ∈ body, RunsLowered i stmt) :
    i.runsAll (loweredAll none body) = i.runsAll body := by
  rw [runsAll_loweredAll rfl h, Interpretation.runsClause, onContinue_skip]

theorem runsClause_normal (hlast : last.all isClause = true) {outcome : Completion}
    (h : i.runsClause last s trace t outcome) : outcome = .normal := by
  cases last with
  | none => exact h.2.2
  | some stmt => cases stmt <;> first | exact h.2.2 | cases hlast

theorem asks_getD (test : Option Expr) (pos : Pos) :
    i.asks (some (test.getD (.boolean true pos))) = i.asks test := by
  cases test <;> rfl

-- A loop of three clauses runs as what it is lowered to.
theorem runsAll_forClauses {init : Option Stmt} (test : Option Expr) (pos : Pos)
    (outer : Option Stmt) (hlast : last.all isClause = true)
    (hbody : ∀ stmt ∈ body, RunsLowered i stmt) :
    i.runsAll (lowered outer (.forClauses init test last body pos)) =
      i.runs (.forClauses init test last body pos) := by
  have hloop : i.loop test (i.runsAll body) (i.runsClause last) =
      i.loop test (seq (onContinue (i.runsClause last) (i.runsAll body)) (i.runsClause last)) skip :=
    funext (rounds_update (fun _ _ _ _ => runsClause_normal hlast) ())
  have hwhile : i.runs (.whileDo (test.getD (.boolean true pos))
      (loweredAll last body ++ last.toList) pos) =
      loops (i.loop test (i.runsAll (loweredAll last body ++ last.toList)) skip) := by
    rw [Interpretation.runs, Interpretation.loop, asks_getD, Interpretation.loop]
  rw [lowered, Interpretation.runsAll_append, Interpretation.runsAll_toList,
    Interpretation.runsAll_singleton, hwhile, Interpretation.runsAll_append,
    runsAll_loweredAll hlast hbody, Interpretation.runsAll_toList, ← hloop, ← loops_seq,
    Interpretation.runs]
  rfl

-- Only conditionals and `continue` go on to the next round of the loop around them.
def goesOn : Stmt → Bool
  | .ifElse _ _ _ _ _ | .continues _ => true
  | _ => false

theorem runs_ne_continued (hstmt : goesOn stmt = false) (hlowerable : isLowerable stmt = true) :
    ¬ i.runs stmt s trace t .continued := by
  intro h
  cases stmt with
  | ifElse | continues => cases hstmt
  | tryCatch => exact h
  | forIn target iteration body pos =>
      obtain ⟨starts, rest, -, hrounds⟩ := h
      exact rounds_ne_continued hrounds
  | whileDo condition body pos =>
      obtain ⟨starts, hrounds⟩ := h
      exact rounds_ne_continued hrounds
  | forClauses init test last body pos =>
      obtain ⟨starts, ⟨first, second, middle, -, hrounds, -⟩ | ⟨-, hclause⟩⟩ := h
      · exact rounds_ne_continued hrounds
      · cases runsClause_normal (Bool.and_eq_true_iff.mp hlowerable).1 hclause
  | _ => cases h.2.2

theorem runsLowered_step (hstmt : isLowerable stmt = true)
    (h : ∀ child ∈ stmt.children, RunsLowered i child) : RunsLowered i stmt := by
  intro last hlast
  -- All statements but two are followed by nothing.
  have hself : goesOn stmt = false →
      onContinue (i.runsClause last) (i.runs stmt) = i.runs stmt := fun hgoes =>
    onContinue_eq_self (fun _ _ _ => runs_ne_continued hgoes hstmt) _
  cases stmt with
  | classDef | functionDef | tryCatch => cases hstmt
  | ifElse condition body elifs orElse pos =>
      obtain ⟨hblocks, horElse⟩ := List.forall_mem_append.mp h
      obtain ⟨hbody, helifs⟩ := List.forall_mem_append.mp hblocks
      rw [lowered, Interpretation.runsAll_singleton, Interpretation.runs,
        runsAll_loweredAll hlast hbody, runsOption_lowered hlast horElse,
        runsElifs_lowered hlast helifs, ← onContinue_choose, Interpretation.runs]
  | forIn target iteration body pos | whileDo condition body pos =>
      have hbody : ∀ stmt ∈ body, RunsLowered i stmt := h
      rw [hself rfl, lowered, Interpretation.runsAll_singleton, Interpretation.runs,
        runsAll_loweredAll_none hbody, Interpretation.runs]
  | forClauses init test update body pos =>
      obtain ⟨-, hupdate⟩ := Bool.and_eq_true_iff.mp hstmt
      rw [hself rfl]
      exact runsAll_forClauses test pos last hupdate (List.forall_mem_append.mp h).2
  | continues pos =>
      rw [lowered, Interpretation.runsAll_append, Interpretation.runsAll_toList,
        Interpretation.runsAll_singleton, Interpretation.runs,
        onContinue_leave fun _ _ _ _ => runsClause_normal hlast]
  | _ =>
      rw [hself rfl]
      exact i.runsAll_singleton _

theorem runsLowered (i : Interpretation σ ι) (h : stmt.all isLowerable = true) :
    RunsLowered i stmt := by
  induction stmt, h using Stmt.all_induct with
  | step stmt hstmt _ hchildren => exact runsLowered_step hstmt hchildren

end Runs

-- A loop of three clauses is written as a loop with one condition behind its start, in which its
-- update stands at the end and wherever a round is left early, and the two run alike: through the same
-- actions, to the same state and with the same way to leave off.
theorem forClauses_lowered {init : Option Stmt} {test : Option Expr} {last : Option Stmt}
    {body : List Stmt} {pos : Pos}
    (h : (Stmt.forClauses init test last body pos).all isLowerable = true) :
    let lowered := init.toList ++
      [.whileDo (test.getD (.boolean true pos)) (loweredAll last body ++ last.toList) pos]
    (∀ ctx update, writeStmt ctx update (.forClauses init test last body pos) =
      writeStmts ctx update lowered) ∧
    ∀ {σ ι : Type} (i : Interpretation σ ι) (s : σ) (trace : List Action) (t : σ)
      (outcome : Completion), i.runs (.forClauses init test last body pos) s trace t outcome ↔
        i.runsAll lowered s trace t outcome := by
  obtain ⟨hloop, hchildren⟩ := Stmt.all_iff.mp h
  obtain ⟨hinit, hlast⟩ := Bool.and_eq_true_iff.mp hloop
  have hbody := (List.forall_mem_append.mp hchildren).2
  constructor
  · intro ctx update
    rw [writeStmt_forClauses_lowered test pos none hinit hlast fun stmt hstmt =>
      writesLowered (hbody stmt hstmt)]
    have hclause : writeStmts ctx update init.toList = writeStmts ctx none init.toList :=
      writeStmts_clause hinit
    rw [lowered, writeStmts_append init.toList, writeStmts_append init.toList, hclause]
    rfl
  · intro σ ι i s trace t outcome
    have hruns : i.runsAll (lowered none (.forClauses init test last body pos)) = _ :=
      runsAll_forClauses test pos none hlast fun stmt hstmt => runsLowered i (hbody stmt hstmt)
    rw [← hruns, lowered]

-- The update of a loop stands in front of its own `continue` and not in front of one of a loop in it.
theorem forClauses_lowered_ownContinue :
    let name : String → Expr := fun name => .var name .start
    let zero : Stmt := .assign [name "i"] (some (.number "0" .start)) none .start
    let count : Stmt := .augAssign (name "i") .add (.number "1" .start) .start
    let skips : Stmt := .ifElse (name "odd") [.continues .start] [] none .start
    let waits : Stmt := .whileDo (name "busy") [.continues .start] .start
    (Stmt.forClauses (some zero) (some (name "more")) (some count) [skips, waits] .start).all
      isLowerable = true ∧
    writeStmt .toplevel none
      (.forClauses (some zero) (some (name "more")) (some count) [skips, waits] .start) =
      writeStmts .toplevel none [zero, .whileDo (name "more")
        [.ifElse (name "odd") [count, .continues .start] [] none .start, waits, count] .start] :=
  ⟨by decide, (forClauses_lowered (by decide)).1 .toplevel none⟩

end Diglot.Indented
