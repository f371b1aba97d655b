import Diglot.Proofs.Termination

namespace Diglot.Braced

-- Whether both notations have a statement of this kind. Loops with clauses and declarations are
-- only braced.
def isCommon : Stmt → Bool
  | .forClauses .. => false
  | .assign _ _ declaration _ => declaration.isNone
  | _ => true

-- A statement whose kind, and that of every statement in it, is common.
def Common (stmt : Stmt) : Prop := stmt.all isCommon = true

-- All statements of the indented notation are.
theorem common_of_shaped {stmt : Stmt} (h : stmt.Shaped .pythonScript) : Common stmt := by
  induction stmt using Stmt.children_induct with
  | step stmt ih =>
      obtain ⟨⟨-, hof⟩, -, hchildren⟩ := Stmt.shaped_iff.mp h
      refine Stmt.all_iff.mpr ⟨?_, fun child hchild => ih child hchild (hchildren child hchild)⟩
      cases stmt with
      | forClauses => cases hof
      | assign targets value declaration pos => exact (Bool.and_eq_true_iff.mp hof).2
      | _ => rfl

theorem common_of_parseTokens {tokens : List Token} {module : Module}
    (h : parseTokens .pythonScript tokens = .ok module) : ∀ stmt ∈ module.body, Common stmt := by
  obtain ⟨limits, hmodule⟩ := isModule_of_parseTokens h
  exact fun stmt hstmt => common_of_shaped (hmodule.body.stmts stmt hstmt).shaped

-- What stands in front of a block.
inductive BlockHead where
  -- A head that declares nothing.
  | plain (text : String)
  | loop (inMethod : Bool) (target : String) (iteration : Iteration)
  | catching (name : String)

def BlockHead.text : BlockHead → String
  | plain text => text
  | loop inMethod target iteration => "for (" ++ writeHead inMethod target iteration ++ ") \x7b"
  | catching name => "\x7d catch (" ++ name ++ ") \x7b"

-- How a function is written.
inductive Form where
  | declared
  | arrow
  | method

def Form.opening (form : Form) (name : String) : String :=
  match form with
  | declared => "function " ++ name ++ "("
  | arrow => "const " ++ name ++ " = ("
  | method => name ++ "("

def Form.middle : Form → String
  | arrow => ") => \x7b"
  | _ => ") \x7b"

def Form.closing : Form → String
  | arrow => "\x7d;"
  | _ => "\x7d"

-- The written lines of a statement, as far as names go: what they declare and assign, and how their
-- blocks are nested.
inductive Outline where
  -- Lines that neither declare nor assign.
  | plain (lines : Fragment)
  | lets (names : List String)
  | requires (module : String) (kind : ImportKind)
  | assigns (inMethod : Bool) (targets : List Expr) (value : Option Expr)
  | updates (inMethod : Bool) (target : Expr) (op : BinaryOp) (value : Expr)
  | classOf (name : String) (base : Option String) (members : List Outline)
  | function (form : Form) (inMethod : Bool) (name : String) (params : List Parameter)
      (body : List Outline)
  -- Blocks one behind the other, as those of a branch.
  | blocks (parts : List (BlockHead × List Outline))

-- The line that declares some names, if there are any.
def letLine : List String → Fragment
  | [] => .empty
  | names => .line ("let " ++ ", ".intercalate names ++ ";")

mutual

def Outline.render : Outline → Fragment
  | .plain lines => lines
  | .lets names => letLine names
  | .requires module kind => .line (writeImport module kind)
  | .assigns inMethod targets value => .line (writeAssign inMethod targets value none ++ ";")
  | .updates inMethod target op value => .line (writeAugAssign inMethod target op value ++ ";")
  | .classOf name base members =>
      .line ("class " ++ name ++ (base.map (" extends " ++ ·)).getD "" ++ " \x7b") ++
        (renderAll members).indent ++ .line "\x7d"
  | .function form inMethod name params body =>
      .phrase (writeParams inMethod (form.opening name) params form.middle) ++
        (renderAll body).indent ++ .line form.closing
  | .blocks parts => renderParts parts ++ .line "\x7d"

def renderAll : List Outline → Fragment
  | [] => .empty
  | first :: rest => first.render ++ renderAll rest

def renderParts : List (BlockHead × List Outline) → Fragment
  | [] => .empty
  | (head, body) :: rest => .line head.text ++ (renderAll body).indent ++ renderParts rest

end

-- The outline of a function, whose body is outlined by `inner`.
def outlineFunction (ctx : Context) (name : String) (params : List Parameter) (body : List Stmt)
    (inner : Context → List Outline) : Outline :=
  if ctx.inClass then
    let params := methodParams params
    let name := if name = "__init__" then "constructor" else name
    .function .method ctx.inMethod name params (.lets (hoisted body params) :: inner .methodBody)
  else if ctx.inMethod then
    .function .arrow ctx.inMethod name params (.lets (hoisted body params) :: inner ctx)
  else
    .function .declared ctx.inMethod name params (.lets (hoisted body params) :: inner .toplevel)

mutual

-- The outline of a statement that both notations have.
def outline (ctx : Context) : Stmt → Outline
  | .imports module kind _ => .requires module kind
  | .classDef name base body _ => .classOf name base (outlineMembers ctx body)
  | .functionDef name params body _ =>
      outlineFunction ctx name params body fun inner => outlineAll inner body
  | .ifElse condition body elifs orElse _ =>
      .blocks ((.plain ("if (" ++ writeExpr ctx.inMethod condition ++ ") \x7b"),
          outlineAll ctx body) ::
        (outlineElifs ctx elifs ++ outlineOption ctx "\x7d else \x7b" orElse))
  | .forIn target iteration body _ =>
      .blocks [(.loop ctx.inMethod target iteration, outlineAll ctx body)]
  | .whileDo condition body _ =>
      .blocks [(.plain ("while (" ++ writeExpr ctx.inMethod condition ++ ") \x7b"),
        outlineAll ctx body)]
  | .tryCatch body handler cleanup _ =>
      .blocks ((.plain "try \x7b", outlineAll ctx body) ::
        (outlineHandler ctx handler ++ outlineOption ctx "\x7d finally \x7b" cleanup))
  | .assign targets value none _ => .assigns ctx.inMethod targets value
  | .augAssign target op value _ => .updates ctx.inMethod target op value
  | .returns value pos => .plain (writeStmt ctx (.returns value pos))
  | .print args pos => .plain (writeStmt ctx (.print args pos))
  | .expr value pos => .plain (writeStmt ctx (.expr value pos))
  | .breaks pos => .plain (writeStmt ctx (.breaks pos))
  | .continues pos => .plain (writeStmt ctx (.continues pos))
  | .pass _ | .assign _ _ (some _) _ | .forClauses .. => .plain .empty

def outlineAll (ctx : Context) : List Stmt → List Outline
  | [] => []
  | first :: rest => outline ctx first :: outlineAll ctx rest

def outlineMembers (ctx : Context) : List Stmt → List Outline
  | [] => []
  | .functionDef name params body _ :: rest =>
      (outlineFunction .classBody name params body fun inner => outlineAll inner body) ::
        outlineMembers ctx rest
  | member :: rest => .plain (writeMembers ctx [member]) :: outlineMembers ctx rest

def outlineElifs (ctx : Context) : List (ElifClause Stmt) → List (BlockHead × List Outline)
  | [] => []
  | ⟨condition, body, _⟩ :: rest =>
      (.plain ("\x7d else if (" ++ writeExpr ctx.inMethod condition ++ ") \x7b"),
        outlineAll ctx body) :: outlineElifs ctx rest

def outlineOption (ctx : Context) (head : String) :
    Option (List Stmt) → List (BlockHead × List Outline)
  | none => []
  | some body => [(.plain head, outlineAll ctx body)]

def outlineHandler (ctx : Context) : Option (Handler Stmt) → List (BlockHead × List Outline)
  | none => []
  | some ⟨name, body, _⟩ => [(.catching (name.getD "e"), outlineAll ctx body)]

end

-- The outline of a whole program.
def outlineModule (module : Module) : List Outline :=
  .lets (hoisted module.body []) :: outlineAll .toplevel module.body

section Parts

variable (ctx : Context)

-- The blocks of a statement with their heads.
def parts : Stmt → List (BlockHead × List Stmt)
  | .ifElse condition body elifs orElse _ =>
      (.plain ("if (" ++ writeExpr ctx.inMethod condition ++ ") \x7b"), body) ::
        (elifs.map (fun clause =>
          (.plain ("\x7d else if (" ++ writeExpr ctx.inMethod clause.condition ++ ") \x7b"),
            clause.body)) ++
          orElse.toList.map (.plain "\x7d else \x7b", ·))
  | .forIn target iteration body _ => [(.loop ctx.inMethod target iteration, body)]
  | .whileDo condition body _ =>
      [(.plain ("while (" ++ writeExpr ctx.inMethod condition ++ ") \x7b"), body)]
  | .tryCatch body handler cleanup _ =>
      (.plain "try \x7b", body) ::
        (handler.toList.map (fun handler => (.catching (handler.name.getD "e"), handler.body)) ++
          cleanup.toList.map (.plain "\x7d finally \x7b", ·))
  | _ => []

-- The outline of a part.
def outlinePart (part : BlockHead × List Stmt) : BlockHead × List Outline :=
  (part.1, outlineAll ctx part.2)

theorem outlineElifs_eq (elifs : List (ElifClause Stmt)) :
    outlineElifs ctx elifs = (elifs.map fun clause =>
      (.plain ("\x7d else if (" ++ writeExpr ctx.inMethod clause.condition ++ ") \x7b"),
        clause.body)).map (outlinePart ctx) := by
  induction elifs with
  | nil => rfl
  | cons clause rest ih => rw [outlineElifs, ih, List.map_cons, List.map_cons, outlinePart]

theorem outlineOption_eq (head : String) (body : Option (List Stmt)) :
    outlineOption ctx head body = (body.toList.map (.plain head, ·)).map (outlinePart ctx) := by
  cases body <;> rfl

theorem outlineHandler_eq (handler : Option (Handler Stmt)) :
    outlineHandler ctx handler = (handler.toList.map fun handler =>
      (.catching (handler.name.getD "e"), handler.body)).map (outlinePart ctx) := by
  cases handler <;> rfl

variable {ctx} {stmt : Stmt}

-- A statement that has blocks is outlined block by block.
theorem outline_of_parts (h : parts ctx stmt ≠ []) :
    outline ctx stmt = .blocks ((parts ctx stmt).map (outlinePart ctx)) := by
  cases stmt with
  | ifElse condition body elifs orElse pos =>
      simp only [outline, parts, outlineElifs_eq, outlineOption_eq, List.map_cons, List.map_append,
        outlinePart]
  | tryCatch body handler cleanup pos =>
      simp only [outline, parts, outlineHandler_eq, outlineOption_eq, List.map_cons,
        List.map_append, outlinePart]
  | forIn target iteration body pos => rfl
  | whileDo condition body pos => rfl
  | _ => exact absurd rfl h

theorem mem_children_of_mem_parts {part : BlockHead × List Stmt} (hpart : part ∈ parts ctx stmt)
    {child : Stmt} (hchild : child ∈ part.2) : child ∈ stmt.children := by
  cases stmt with
  | ifElse condition body elifs orElse pos =>
      simp only [parts, List.mem_cons, List.mem_append, List.mem_map, Option.mem_toList] at hpart
      simp only [Stmt.children, List.mem_append, List.mem_flatMap]
      rcases hpart with rfl | ⟨clause, hclause, rfl⟩ | ⟨inner, rfl, rfl⟩
      · exact .inl (.inl hchild)
      · exact .inl (.inr ⟨clause, hclause, hchild⟩)
      · exact .inr hchild
  | tryCatch body handler cleanup pos =>
      simp only [parts, List.mem_cons, List.mem_append, List.mem_map, Option.mem_toList] at hpart
      simp only [Stmt.children, List.mem_append]
      rcases hpart with rfl | ⟨found, rfl, rfl⟩ | ⟨inner, rfl, rfl⟩
      · exact .inl (.inl hchild)
      · exact .inl (.inr hchild)
      · exact .inr hchild
  | forIn target iteration body pos | whileDo condition body pos =>
      rw [List.mem_singleton.mp hpart] at hchild
      exact hchild
  | _ => cases hpart

end Parts

section Rendering

variable {body : List Stmt} {ctx : Context} {stmt : Stmt}

theorem letLine_hoisted (body : List Stmt) (params : List Parameter) :
    letLine (hoisted body params) = declareLocals body params := by
  unfold letLine declareLocals
  cases hoisted body params <;> rfl

-- A statement whose outline says all of its lines.
def Outlined (stmt : Stmt) : Prop := ∀ ctx, (outline ctx stmt).render = writeStmt ctx stmt

theorem renderAll_outlineAll (h : ∀ stmt ∈ body, Outlined stmt) (ctx : Context) :
    renderAll (outlineAll ctx body) = writeStmts ctx body := by
  induction body with
  | nil => rfl
  | cons first rest ih =>
      obtain ⟨hfirst, hrest⟩ := List.forall_mem_cons.mp h
      rw [outlineAll, renderAll, writeStmts, hfirst ctx, ih hrest]

theorem render_outlineFunction (h : ∀ stmt ∈ body, Outlined stmt) (ctx : Context) (name : String)
    (params : List Parameter) :
    (outlineFunction ctx name params body fun inner => outlineAll inner body).render =
      writeFunction ctx name params body fun inner => writeStmts inner body := by
  have hbody := renderAll_outlineAll h
  unfold outlineFunction writeFunction
  split
  · simp only [Outline.render, renderAll, letLine_hoisted, hbody]
    rfl
  split
  · simp only [Outline.render, renderAll, letLine_hoisted, hbody]
    rfl
  · simp only [Outline.render, renderAll, letLine_hoisted, hbody]
    rfl

theorem renderAll_outlineMembers (h : ∀ stmt ∈ body, Outlined stmt) (ctx : Context) :
    renderAll (outlineMembers ctx body) = writeMembers ctx body := by
  induction body with
  | nil => rfl
  | cons member rest ih =>
      obtain ⟨hmember, hrest⟩ := List.forall_mem_cons.mp h
      cases member with
      | functionDef name params body pos =>
          have hfunction := hmember .classBody
          simp only [outline, writeStmt] at hfunction
          rw [outlineMembers, renderAll, writeMembers, hfunction, ih hrest]
      | _ => simp [outlineMembers, renderAll, Outline.render, writeMembers, ih hrest]

-- The lines of blocks, each behind its head.
def writeParts (ctx : Context) : List (BlockHead × List Stmt) → Fragment
  | [] => .empty
  | (head, body) :: rest =>
      .line head.text ++ (writeStmts ctx body).indent ++ writeParts ctx rest

theorem writeParts_append (ctx : Context) (first second : List (BlockHead × List Stmt)) :
    writeParts ctx (first ++ second) = writeParts ctx first ++ writeParts ctx second := by
  induction first with
  | nil => simp [writeParts]
  | cons part rest ih =>
      obtain ⟨head, body⟩ := part
      simp only [List.cons_append, writeParts, ih, Fragment.append_assoc]

theorem writeElifs_eq (ctx : Context) (elifs : List (ElifClause Stmt)) :
    writeElifs ctx elifs = writeParts ctx (elifs.map fun clause =>
      (.plain ("\x7d else if (" ++ writeExpr ctx.inMethod clause.condition ++ ") \x7b"),
        clause.body)) := by
  induction elifs with
  | nil => rfl
  | cons clause rest ih => rw [writeElifs, ih, List.map_cons, writeParts, BlockHead.text]

theorem writeOption_eq (ctx : Context) (head : String) (body : Option (List Stmt)) :
    writeOption ctx head body = writeParts ctx (body.toList.map (.plain head, ·)) := by
  cases body with
  | none => rfl
  | some body => simp [writeOption, writeParts, BlockHead.text]

theorem writeHandler_eq (ctx : Context) (handler : Option (Handler Stmt)) :
    writeHandler ctx handler = writeParts ctx (handler.toList.map fun handler =>
      (.catching (handler.name.getD "e"), handler.body)) := by
  cases handler with
  | none => rfl
  | some handler => simp [writeHandler, writeParts, BlockHead.text]

theorem writeStmt_of_parts (h : parts ctx stmt ≠ []) :
    writeStmt ctx stmt = writeParts ctx (parts ctx stmt) ++ .line "\x7d" := by
  cases stmt with
  | ifElse condition body elifs orElse pos =>
      simp only [writeStmt, parts, writeElifs_eq, writeOption_eq, writeParts, writeParts_append,
        BlockHead.text, Fragment.append_assoc]
  | tryCatch body handler cleanup pos =>
      simp only [writeStmt, parts, writeHandler_eq, writeOption_eq, writeParts, writeParts_append,
        BlockHead.text, Fragment.append_assoc]
  | forIn target iteration body pos | whileDo condition body pos =>
      simp only [writeStmt, parts, writeParts, BlockHead.text, Fragment.append_empty]
  | _ => exact absurd rfl h

theorem renderParts_map {list : List (BlockHead × List Stmt)}
    (h : ∀ part ∈ list, ∀ stmt ∈ part.2, Outlined stmt) :
    renderParts (list.map (outlinePart ctx)) = writeParts ctx list := by
  induction list with
  | nil => rfl
  | cons part rest ih =>
      obtain ⟨hpart, hrest⟩ := List.forall_mem_cons.mp h
      obtain ⟨head, body⟩ := part
      have hbody : renderAll (outlineAll ctx body) = writeStmts ctx body :=
        renderAll_outlineAll hpart ctx
      simp only [List.map_cons, outlinePart, renderParts, writeParts, hbody, ih hrest]

theorem outlined_of_common (h : Common stmt) : Outlined stmt := by
  induction stmt, h using Stmt.all_induct with
  | step stmt hcommon _ hinner =>
      intro ctx
      by_cases hparts : parts ctx stmt = []
      · cases stmt with
        | classDef name base body pos =>
            have hmembers : renderAll (outlineMembers ctx body) = writeMembers ctx body :=
              renderAll_outlineMembers hinner ctx
            cases base with
            | none => simp only [outline, Outline.render, writeStmt, hmembers, Option.map_none,
                Option.getD_none]
            | some base => simp only [outline, Outline.render, writeStmt, hmembers, Option.map_some,
                Option.getD_some]
        | functionDef name params body pos => exact render_outlineFunction hinner ctx name params
        | ifElse | forIn | whileDo | tryCatch => cases hparts
        | forClauses => cases hcommon
        | assign targets value declaration pos =>
            cases declaration with
            | none => rfl
            | some word => cases hcommon
        | _ => rfl
      · rw [outline_of_parts hparts, writeStmt_of_parts hparts, Outline.render, renderParts_map]
        intro part hpart child hchild
        exact hinner child (mem_children_of_mem_parts hpart hchild)

-- The outline of a program says all of its lines.
theorem renderAll_outlineModule {module : Module} (h : ∀ stmt ∈ module.body, Common stmt) :
    renderAll (outlineModule module) = writeModule module := by
  have hbody := renderAll_outlineAll fun stmt hstmt => outlined_of_common (h stmt hstmt)
  rw [outlineModule, renderAll, hbody, writeModule, Outline.render, letLine_hoisted]

end Rendering

end Diglot.Braced
