import Diglot.Proofs.Placeless

namespace Diglot

namespace Stmt

variable {stmt : Stmt}

-- The statements that stand directly in a statement.
def children : Stmt → List Stmt
  | classDef _ _ body _ | functionDef _ _ body _ | forIn _ _ body _ | whileDo _ body _ => body
  | ifElse _ body elifs orElse _ => body ++ elifs.flatMap (·.body) ++ orElse.getD []
  | forClauses init _ update body _ => init.toList ++ update.toList ++ body
  | tryCatch body handler cleanup _ => body ++ (handler.map (·.body)).getD [] ++ cleanup.getD []
  | _ => []

-- The statements that are clauses of a loop.
def clauses : Stmt → List Stmt
  | forClauses init _ update _ _ => init.toList ++ update.toList
  | _ => []

theorem sizeOf_lt_of_mem_elifs {elifs : List (ElifClause Stmt)}
    (h : stmt ∈ elifs.flatMap (·.body)) :
    sizeOf stmt < sizeOf elifs := by
  obtain ⟨⟨condition, body, pos⟩, hclause, hbody⟩ := List.mem_flatMap.mp h
  have hinner := List.sizeOf_lt_of_mem hbody
  have houter := List.sizeOf_lt_of_mem hclause
  simp only [ElifClause.mk.sizeOf_spec] at houter hinner
  omega

theorem sizeOf_lt_of_mem_getD {body : Option (List Stmt)} (h : stmt ∈ body.getD []) :
    sizeOf stmt < sizeOf body := by
  cases body with
  | none => simp at h
  | some body =>
      have hinner : sizeOf stmt < sizeOf body := List.sizeOf_lt_of_mem h
      simp only [Option.some.sizeOf_spec]
      omega

theorem sizeOf_lt_of_mem_handler {handler : Option (Handler Stmt)}
    (h : stmt ∈ (handler.map (·.body)).getD []) : sizeOf stmt < sizeOf handler := by
  cases handler with
  | none => simp at h
  | some handler =>
      obtain ⟨name, body, pos⟩ := handler
      have hinner : sizeOf stmt < sizeOf body := List.sizeOf_lt_of_mem h
      simp only [Option.some.sizeOf_spec, Handler.mk.sizeOf_spec]
      omega

theorem sizeOf_lt_of_mem_children {child : Stmt} (h : child ∈ stmt.children) :
    sizeOf child < sizeOf stmt := by
  cases stmt with
  | classDef name base body pos =>
      have hbody : sizeOf child < sizeOf body := List.sizeOf_lt_of_mem h
      simp only [classDef.sizeOf_spec]
      omega
  | functionDef name params body pos =>
      have hbody : sizeOf child < sizeOf body := List.sizeOf_lt_of_mem h
      simp only [functionDef.sizeOf_spec]
      omega
  | forIn target iteration body pos =>
      have hbody : sizeOf child < sizeOf body := List.sizeOf_lt_of_mem h
      simp only [forIn.sizeOf_spec]
      omega
  | whileDo condition body pos =>
      have hbody : sizeOf child < sizeOf body := List.sizeOf_lt_of_mem h
      simp only [whileDo.sizeOf_spec]
      omega
  | ifElse condition body elifs orElse pos =>
      simp only [children, List.mem_append] at h
      simp only [ifElse.sizeOf_spec]
      rcases h with (h | h) | h
      · have := List.sizeOf_lt_of_mem h
        omega
      · have := sizeOf_lt_of_mem_elifs h
        omega
      · have := sizeOf_lt_of_mem_getD h
        omega
  | forClauses init test update body pos =>
      simp only [children, List.mem_append, Option.mem_toList] at h
      simp only [forClauses.sizeOf_spec]
      rcases h with (rfl | rfl) | h
      · simp only [Option.some.sizeOf_spec]
        omega
      · simp only [Option.some.sizeOf_spec]
        omega
      · have := List.sizeOf_lt_of_mem h
        omega
  | tryCatch body handler cleanup pos =>
      simp only [children, List.mem_append] at h
      simp only [tryCatch.sizeOf_spec]
      rcases h with (h | h) | h
      · have := List.sizeOf_lt_of_mem h
        omega
      · have := sizeOf_lt_of_mem_handler h
        omega
      · have := sizeOf_lt_of_mem_getD h
        omega
  | _ => simp [children] at h

-- Induction over statements by the statements in them.
theorem children_induct {P : Stmt → Prop}
    (step : ∀ stmt, (∀ child ∈ stmt.children, P child) → P stmt) (stmt : Stmt) : P stmt :=
  step stmt fun child hchild =>
    have := sizeOf_lt_of_mem_children hchild
    children_induct step child
termination_by sizeOf stmt

section All

mutual

-- Whether a statement and all statements in it pass a test.
def all (p : Stmt → Bool) : Stmt → Bool
  | stmt@(.classDef _ _ body _) => p stmt && listAll p body
  | stmt@(.functionDef _ _ body _) => p stmt && listAll p body
  | stmt@(.ifElse _ body elifs orElse _) =>
      p stmt && listAll p body && elifsAll p elifs && bodyAll p orElse
  | stmt@(.forIn _ _ body _) => p stmt && listAll p body
  | stmt@(.forClauses init _ update body _) =>
      p stmt && clauseAll p init && clauseAll p update && listAll p body
  | stmt@(.whileDo _ body _) => p stmt && listAll p body
  | stmt@(.tryCatch body handler cleanup _) =>
      p stmt && listAll p body && handlerAll p handler && bodyAll p cleanup
  | stmt => p stmt

def listAll (p : Stmt → Bool) : List Stmt → Bool
  | [] => true
  | first :: rest => first.all p && listAll p rest

def bodyAll (p : Stmt → Bool) : Option (List Stmt) → Bool
  | none => true
  | some body => listAll p body

def clauseAll (p : Stmt → Bool) : Option Stmt → Bool
  | none => true
  | some stmt => stmt.all p

def elifsAll (p : Stmt → Bool) : List (ElifClause Stmt) → Bool
  | [] => true
  | ⟨_, body, _⟩ :: rest => listAll p body && elifsAll p rest

def handlerAll (p : Stmt → Bool) : Option (Handler Stmt) → Bool
  | none => true
  | some ⟨_, body, _⟩ => listAll p body

end

variable {p : Stmt → Bool}

theorem listAll_iff {body : List Stmt} :
    listAll p body = true ↔ ∀ stmt ∈ body, stmt.all p = true := by
  induction body with
  | nil => simp [listAll]
  | cons first rest ih => simp [listAll, ih]

theorem bodyAll_iff {body : Option (List Stmt)} :
    bodyAll p body = true ↔ ∀ stmt ∈ body.getD [], stmt.all p = true := by
  cases body with
  | none => simp [bodyAll]
  | some body => simp [bodyAll, listAll_iff]

theorem elifsAll_iff {elifs : List (ElifClause Stmt)} :
    elifsAll p elifs = true ↔ ∀ stmt ∈ elifs.flatMap (·.body), stmt.all p = true := by
  induction elifs with
  | nil => simp [elifsAll]
  | cons first rest ih =>
      obtain ⟨condition, body, pos⟩ := first
      rw [elifsAll, Bool.and_eq_true, listAll_iff, ih, List.flatMap_cons, List.forall_mem_append]

theorem handlerAll_iff {handler : Option (Handler Stmt)} :
    handlerAll p handler = true ↔
      ∀ stmt ∈ (handler.map (·.body)).getD [], stmt.all p = true := by
  cases handler with
  | none => simp [handlerAll]
  | some handler =>
      obtain ⟨name, body, pos⟩ := handler
      exact listAll_iff

-- A statement passes a test throughout if it does and the statements in it do throughout.
theorem all_iff {stmt : Stmt} :
    stmt.all p = true ↔ p stmt = true ∧ ∀ child ∈ stmt.children, child.all p = true := by
  cases stmt with
  | ifElse condition body elifs orElse pos =>
      simp only [all, children, Bool.and_eq_true, listAll_iff, elifsAll_iff, bodyAll_iff,
        List.forall_mem_append, and_assoc]
  | tryCatch body handler cleanup pos =>
      simp only [all, children, Bool.and_eq_true, listAll_iff, handlerAll_iff, bodyAll_iff,
        List.forall_mem_append, and_assoc]
  | forClauses init test update body pos =>
      cases init <;> cases update <;>
        simp [all, children, clauseAll, listAll_iff, and_assoc]
  | _ => simp [all, children, listAll_iff]

theorem all_induct {P : (stmt : Stmt) → stmt.all p = true → Prop}
    (step : ∀ stmt (hstmt : p stmt = true) (hall : ∀ child ∈ stmt.children, child.all p = true),
      (∀ child (hchild : child ∈ stmt.children), P child (hall child hchild)) →
        P stmt (all_iff.mpr ⟨hstmt, hall⟩)) (stmt : Stmt) (h : stmt.all p = true) : P stmt h := by
  induction stmt using children_induct with
  | step stmt ih =>
      obtain ⟨hstmt, hall⟩ := all_iff.mp h
      exact step stmt hstmt hall fun child hchild => ih child hchild (hall child hchild)

theorem all_and {q : Stmt → Bool} {stmt : Stmt} :
    stmt.all (fun stmt => p stmt && q stmt) = true ↔ stmt.all p = true ∧ stmt.all q = true := by
  induction stmt using children_induct with
  | step stmt ih =>
      rw [all_iff, all_iff (p := p), all_iff (p := q)]
      grind

theorem all_imp {q : Stmt → Bool} {stmt : Stmt} (h : ∀ {stmt}, p stmt = true → q stmt = true)
    (hall : stmt.all p = true) : stmt.all q = true := by
  induction stmt, hall using all_induct with
  | step stmt hstmt _ hchildren => exact all_iff.mpr ⟨h hstmt, hchildren⟩

end All

section Padding

mutual

-- A statement with a `pass` in each of its blocks that is empty.
def padded : Stmt → Stmt
  | .classDef name base body pos => .classDef name base (paddedBlock body) pos
  | .functionDef name params body pos => .functionDef name params (paddedBlock body) pos
  | .ifElse condition body elifs orElse pos =>
      .ifElse condition (paddedBlock body) (paddedElifs elifs) (paddedBody orElse) pos
  | .forIn target iteration body pos => .forIn target iteration (paddedBlock body) pos
  | .forClauses init test update body pos =>
      .forClauses (paddedClause init) test (paddedClause update) (paddedBlock body) pos
  | .whileDo condition body pos => .whileDo condition (paddedBlock body) pos
  | .tryCatch body handler cleanup pos =>
      .tryCatch (paddedBlock body) (paddedHandler handler) (paddedBody cleanup) pos
  | stmt => stmt

def paddedAll : List Stmt → List Stmt
  | [] => []
  | first :: rest => first.padded :: paddedAll rest

def paddedBlock : List Stmt → List Stmt
  | [] => [.pass .start]
  | first :: rest => first.padded :: paddedAll rest

def paddedBody : Option (List Stmt) → Option (List Stmt)
  | none => none
  | some body => some (paddedBlock body)

def paddedClause : Option Stmt → Option Stmt
  | none => none
  | some stmt => some stmt.padded

def paddedElifs : List (ElifClause Stmt) → List (ElifClause Stmt)
  | [] => []
  | ⟨condition, body, pos⟩ :: rest => ⟨condition, paddedBlock body, pos⟩ :: paddedElifs rest

def paddedHandler : Option (Handler Stmt) → Option (Handler Stmt)
  | none => none
  | some ⟨name, body, pos⟩ => some ⟨name, paddedBlock body, pos⟩

end

end Padding

end Stmt

-- What may start a loop of three clauses, and what it may do at the end of a round.
def Indented.isClause : Stmt → Bool
  | .assign _ _ _ _ | .augAssign _ _ _ _ | .expr _ _ => true
  | _ => false

-- A statement in which the clauses of all loops are such.
def Stmt.Clausal (stmt : Stmt) : Prop := stmt.all (·.clauses.all Indented.isClause) = true

-- A program with a `pass` in each block that is empty. The program itself is no block.
def Module.padded (module : Module) : Module := ⟨Stmt.paddedAll module.body, module.pos⟩

end Diglot
