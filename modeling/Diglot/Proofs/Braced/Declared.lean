import Diglot.Proofs.Scoping
import Mathlib.Data.List.Basic

namespace Diglot

namespace Stmt

-- The blocks of a statement that are in the scope that it stands in: those of branches, of loops
-- and of what is tried. Functions and classes are scopes of their own.
def scopeBlocks : Stmt → List (List Stmt)
  | ifElse _ body elifs orElse _ => body :: (elifs.map (·.body) ++ orElse.toList)
  | forIn _ _ body _ | whileDo _ body _ => [body]
  | tryCatch body handler cleanup _ =>
      body :: (handler.toList.map (·.body) ++ cleanup.toList)
  | _ => []

theorem scopeBlocks_eq (ctx : Context) (stmt : Stmt) :
    stmt.scopeBlocks = (Braced.parts ctx stmt).map (·.2) := by
  cases stmt <;> simp [scopeBlocks, Braced.parts, Function.comp_def]

theorem mem_children_of_mem_block {stmt child : Stmt} {block : List Stmt}
    (hblock : block ∈ stmt.scopeBlocks) (hchild : child ∈ block) : child ∈ stmt.children := by
  rw [scopeBlocks_eq .toplevel] at hblock
  obtain ⟨part, hpart, rfl⟩ := List.mem_map.mp hblock
  exact Braced.mem_children_of_mem_parts hpart hchild

-- A statement and all statements in it that are in the same scope, in source order.
def inScope (stmt : Stmt) : List Stmt :=
  stmt :: stmt.scopeBlocks.attach.flatMap fun block =>
    block.1.attach.flatMap fun child => child.1.inScope
termination_by sizeOf stmt
decreasing_by exact sizeOf_lt_of_mem_children (mem_children_of_mem_block block.2 child.2)

theorem inScope_eq (stmt : Stmt) :
    stmt.inScope = stmt :: stmt.scopeBlocks.flatMap (·.flatMap inScope) := by
  rw [inScope]
  simp

-- The plain names that a statement assigns to itself.
def ownTargets : Stmt → List String
  | assign targets _ _ _ => targets.filterMap Expr.var?
  | _ => []

end Stmt

-- A line so many levels further in.
def Line.deeper (levels : Nat) (line : Line) : Line := { line with depth := line.depth + levels }

theorem Line.deeper_deeper (more levels : Nat) :
    Line.deeper more ∘ Line.deeper levels = Line.deeper (levels + more) := by
  funext line
  simp [deeper, Nat.add_assoc]

namespace Fragment

-- The lines of a fragment stand in another one, so many levels in and with no line in between.
def Within (levels : Nat) (inner outer : Fragment) : Prop :=
  ∃ before after, outer.lines = before ++ inner.lines.map (Line.deeper levels) ++ after

namespace Within

variable {levels : Nat} {inner outer : Fragment}

theorem refl (fragment : Fragment) : Within 0 fragment fragment := by
  have hnone : Line.deeper 0 = id := rfl
  exact ⟨[], [], by simp [hnone]⟩

theorem append_left (first : Fragment) (h : Within levels inner outer) :
    Within levels inner (first ++ outer) := by
  obtain ⟨before, after, heq⟩ := h
  exact ⟨first.lines ++ before, after, by simp [heq]⟩

theorem append_right (h : Within levels inner outer) (second : Fragment) :
    Within levels inner (outer ++ second) := by
  obtain ⟨before, after, heq⟩ := h
  exact ⟨before, after ++ second.lines, by simp [heq]⟩

theorem indent (h : Within levels inner outer) : Within (levels + 1) inner outer.indent := by
  obtain ⟨before, after, heq⟩ := h
  refine ⟨before.map (Line.deeper 1), after.map (Line.deeper 1), ?_⟩
  have hmap : outer.indent.lines = outer.lines.map (Line.deeper 1) := rfl
  simp [hmap, heq, Line.deeper_deeper]

theorem trans {more : Nat} {middle : Fragment} (hinner : Within levels inner middle)
    (houter : Within more middle outer) : Within (levels + more) inner outer := by
  obtain ⟨before, after, heq⟩ := hinner
  obtain ⟨front, back, houter⟩ := houter
  refine ⟨front ++ before.map (Line.deeper more), after.map (Line.deeper more) ++ back, ?_⟩
  simp [houter, heq, Line.deeper_deeper]

end Within

end Fragment

namespace Braced

section Names

variable {body : List Stmt}

-- What a scope assigns, in source order and with repetitions.
def occurrences (body : List Stmt) : List String :=
  (body.flatMap Stmt.inScope).flatMap Stmt.ownTargets

-- The names that a scope has to declare: what it assigns, its parameters aside, each name once and
-- in the order in which they first occur.
structure Hoists (body : List Stmt) (params : List Parameter) (names : List String) : Prop where
  nodup : names.Nodup
  mem_iff : ∀ name, name ∈ names ↔
    (∃ stmt ∈ body.flatMap Stmt.inScope, name ∈ stmt.ownTargets) ∧ ∀ param ∈ params, param.name ≠ name
  ordered : names.Pairwise fun first second =>
    (occurrences body).idxOf first < (occurrences body).idxOf second

theorem assignedIn_eq_flatMap (body : List Stmt) : assignedIn body = body.flatMap assigned := by
  induction body with
  | nil => rfl
  | cons first rest ih => rw [assignedIn, ih, List.flatMap_cons]

theorem assigned_eq {stmt : Stmt} (h : Common stmt) :
    assigned stmt = stmt.inScope.flatMap Stmt.ownTargets := by
  induction stmt, h using Stmt.all_induct with
  | step stmt hcommon _ hinner =>
      rw [Stmt.inScope_eq, List.flatMap_cons]
      by_cases hparts : parts .toplevel stmt = []
      · have hblocks : stmt.scopeBlocks = [] := by simp [Stmt.scopeBlocks_eq .toplevel, hparts]
        rw [hblocks, List.flatMap_nil, List.flatMap_nil, List.append_nil]
        cases stmt with
        | ifElse | forIn | whileDo | tryCatch => cases hparts
        | forClauses => cases hcommon
        | assign targets value declaration pos =>
            cases declaration with
            | none => rfl
            | some word => cases hcommon
        | _ => rfl
      · have hown : stmt.ownTargets = [] := by
          cases stmt with
          | assign => exact absurd rfl hparts
          | _ => rfl
        have hblocks : ∀ block ∈ stmt.scopeBlocks,
            assignedIn block = (block.flatMap Stmt.inScope).flatMap Stmt.ownTargets := by
          intro block hblock
          rw [assignedIn_eq_flatMap, List.flatMap_assoc]
          refine List.flatMap_congr fun child hchild => ?_
          exact hinner child (Stmt.mem_children_of_mem_block hblock hchild)
        rw [hown, List.nil_append, assigned_of_parts hparts, List.flatMap_assoc,
          ← List.flatMap_congr hblocks, Stmt.scopeBlocks_eq .toplevel, List.flatMap_map]

theorem assignedIn_eq (h : ∀ stmt ∈ body, Common stmt) : assignedIn body = occurrences body := by
  rw [assignedIn_eq_flatMap, occurrences, List.flatMap_assoc]
  exact List.flatMap_congr fun stmt hstmt => assigned_eq (h stmt hstmt)

-- Leaving out others does not change which of two names comes first.
theorem idxOf_filter_lt_iff {p : String → Bool} {first second : String} (hfirst : p first = true)
    (hsecond : p second = true) (names : List String) :
    (names.filter p).idxOf first < (names.filter p).idxOf second ↔
      names.idxOf first < names.idxOf second := by
  induction names with
  | nil => simp
  | cons name names ih =>
      by_cases hname : p name = true
      · rw [List.filter_cons_of_pos hname]
        by_cases heq : name = first
        · rw [List.idxOf_cons_eq _ heq, List.idxOf_cons_eq _ heq]
          by_cases hother : name = second
          · rw [List.idxOf_cons_eq _ hother, List.idxOf_cons_eq _ hother]
          · rw [List.idxOf_cons_ne _ hother, List.idxOf_cons_ne _ hother]
            omega
        · rw [List.idxOf_cons_ne _ heq, List.idxOf_cons_ne _ heq]
          by_cases hother : name = second
          · rw [List.idxOf_cons_eq _ hother, List.idxOf_cons_eq _ hother]
            omega
          · rw [List.idxOf_cons_ne _ hother, List.idxOf_cons_ne _ hother]
            omega
      · have hne : ∀ other, p other = true → name ≠ other := by
          rintro other hother rfl
          exact hname hother
        rw [List.filter_cons_of_neg hname, ih, List.idxOf_cons_ne _ (hne first hfirst),
          List.idxOf_cons_ne _ (hne second hsecond)]
        omega

theorem pairwise_eraseDups (names : List String) :
    names.eraseDups.Pairwise fun first second => names.idxOf first < names.idxOf second := by
  induction hlength : names.length using Nat.strongRecOn generalizing names with
  | ind length ih =>
      cases names with
      | nil => simp
      | cons name names =>
          have hshorter := List.length_filter_le (fun other => !other == name) names
          rw [List.length_cons] at hlength
          have hrest := ih _ (by omega) (names.filter fun other => !other == name) rfl
          rw [List.eraseDups_cons, List.pairwise_cons]
          have hmem : ∀ other ∈ (names.filter fun other => !other == name).eraseDups,
              (!other == name) = true ∧ name ≠ other := by
            intro other hother
            have htest := (List.mem_filter.mp (List.mem_eraseDups.mp hother)).2
            exact ⟨htest, fun heq => by simp [heq] at htest⟩
          constructor
          · intro other hother
            rw [List.idxOf_cons_eq _ rfl, List.idxOf_cons_ne _ (hmem other hother).2]
            omega
          · refine hrest.imp_of_mem fun {first second} hfirst hsecond hlt => ?_
            have hlt := (idxOf_filter_lt_iff (hmem _ hfirst).1 (hmem _ hsecond).1 names).mp hlt
            rw [List.idxOf_cons_ne _ (hmem first hfirst).2,
              List.idxOf_cons_ne _ (hmem second hsecond).2]
            omega

theorem hoists_hoisted (h : ∀ stmt ∈ body, Common stmt) (params : List Parameter) :
    Hoists body params (hoisted body params) := by
  refine ⟨nodup_hoisted body params, fun name => ?_, ?_⟩
  · rw [mem_hoisted, assignedIn_eq h, occurrences, List.mem_flatMap]
    simp
  · rw [← assignedIn_eq h]
    exact (pairwise_eraseDups _).sublist List.filter_sublist

end Names

section Scopes

open Fragment (Within)

variable {stmts : List Stmt} {scope : Scope}

-- A function or method as it is written. The receiver of a method is none of its parameters.
structure Scope where
  form : Form
  name : String
  params : List Parameter
  body : List Stmt

namespace Scope

-- Whether the receiver has its name in the body.
def inMethod (scope : Scope) : Bool :=
  match scope.form with
  | .declared => false
  | .arrow | .method => true

-- The line that a function starts with. The defaults of a method are outside of it.
def head (scope : Scope) : Phrase :=
  let inMethod := match scope.form with
    | .arrow => true
    | .declared | .method => false
  writeParams inMethod (scope.form.opening scope.name) scope.params scope.form.middle

-- The lines of a function that declares the given names at its top.
def lines (scope : Scope) (names : List String) : Fragment :=
  .phrase scope.head ++ (letLine names ++ writeStmts ⟨scope.inMethod, false⟩ scope.body).indent ++
    .line scope.form.closing

end Scope

-- The functions and methods that are written for some statements: those among them, the methods of
-- classes among them, and those in their blocks and in other functions and methods.
inductive Generated : Bool → List Stmt → Scope → Prop
  | function {inMethod : Bool} {stmts body : List Stmt} {name : String} {params : List Parameter}
      {pos : Pos} (hstmt : .functionDef name params body pos ∈ stmts) :
      Generated inMethod stmts ⟨if inMethod then .arrow else .declared, name, params, body⟩
  | method {inMethod : Bool} {stmts members body : List Stmt} {className name : String}
      {base : Option String} {params : List Parameter} {classPos pos : Pos}
      (hclass : .classDef className base members classPos ∈ stmts)
      (hmember : .functionDef name params body pos ∈ members) :
      Generated inMethod stmts
        ⟨.method, if name = "__init__" then "constructor" else name, methodParams params, body⟩
  | block {inMethod : Bool} {stmts block : List Stmt} {stmt : Stmt} {scope : Scope}
      (hstmt : stmt ∈ stmts) (hblock : block ∈ stmt.scopeBlocks)
      (hinner : Generated inMethod block scope) : Generated inMethod stmts scope
  | nested {inMethod : Bool} {stmts : List Stmt} {outer scope : Scope}
      (houter : Generated inMethod stmts outer)
      (hinner : Generated outer.inMethod outer.body scope) : Generated inMethod stmts scope

theorem within_writeStmts (ctx : Context) {stmt : Stmt} (h : stmt ∈ stmts) :
    Within 0 (writeStmt ctx stmt) (writeStmts ctx stmts) := by
  induction stmts with
  | nil => cases h
  | cons first rest ih =>
      rw [writeStmts]
      rcases List.mem_cons.mp h with rfl | h
      · exact (Within.refl _).append_right _
      · exact (ih h).append_left _

theorem within_writeMembers (ctx : Context) {members body : List Stmt} {name : String}
    {params : List Parameter} {pos : Pos} (h : .functionDef name params body pos ∈ members) :
    Within 0 (writeFunction .classBody name params body fun inner => writeStmts inner body)
      (writeMembers ctx members) := by
  induction members with
  | nil => cases h
  | cons member rest ih =>
      rcases List.mem_cons.mp h with rfl | hrest
      · rw [writeMembers]
        exact (Within.refl _).append_right _
      · have hinner := ih hrest
        cases member with
        | functionDef => exact hinner.append_left _
        | pass => exact hinner
        | _ =>
            simp only [writeMembers]
            exact hinner.append_left _

theorem within_writeParts {ctx : Context} {list : List (BlockHead × List Stmt)}
    {part : BlockHead × List Stmt} (h : part ∈ list) :
    Within 1 (writeStmts ctx part.2) (writeParts ctx list) := by
  induction list with
  | nil => cases h
  | cons first rest ih =>
      rw [writeParts]
      rcases List.mem_cons.mp h with rfl | h
      · exact ((Within.refl _).indent.append_left _).append_right _
      · exact (ih h).append_left _

theorem writeFunction_function (inMethod : Bool) (name : String) (params : List Parameter)
    (body : List Stmt) :
    writeFunction ⟨inMethod, false⟩ name params body (fun inner => writeStmts inner body) =
      Scope.lines ⟨if inMethod then .arrow else .declared, name, params, body⟩
        (hoisted body params) := by
  cases inMethod <;> simp [writeFunction, Scope.lines, letLine_hoisted] <;> rfl

theorem writeFunction_method (name : String) (params : List Parameter) (body : List Stmt) :
    writeFunction .classBody name params body (fun inner => writeStmts inner body) =
      Scope.lines ⟨.method, if name = "__init__" then "constructor" else name,
        methodParams params, body⟩ (hoisted body (methodParams params)) := by
  simp [writeFunction, Scope.lines, letLine_hoisted]
  rfl

-- Each function stands as a whole in what is written, behind its own declarations.
theorem Generated.within {inMethod : Bool} (h : Generated inMethod stmts scope) :
    ∃ levels, Within levels (scope.lines (hoisted scope.body scope.params))
      (writeStmts ⟨inMethod, false⟩ stmts) := by
  induction h with
  | @function inMethod stmts body name params pos hstmt =>
      have hwithin := within_writeStmts ⟨inMethod, false⟩ hstmt
      rw [writeStmt, writeFunction_function] at hwithin
      exact ⟨0, hwithin⟩
  | @method inMethod stmts members body className name base params classPos pos hclass hmember =>
      have hwithin := within_writeMembers ⟨inMethod, false⟩ hmember
      rw [writeFunction_method] at hwithin
      have hstmt : Within 1 _ (writeStmt ⟨inMethod, false⟩ (.classDef className base members classPos)) :=
        (hwithin.indent.append_left _).append_right _
      exact ⟨_, hstmt.trans (within_writeStmts _ hclass)⟩
  | @block inMethod stmts block stmt scope hstmt hblock _ ih =>
      obtain ⟨levels, hinner⟩ := ih
      rw [Stmt.scopeBlocks_eq ⟨inMethod, false⟩] at hblock
      obtain ⟨part, hpart, rfl⟩ := List.mem_map.mp hblock
      have hwritten : Within 1 (writeStmts ⟨inMethod, false⟩ part.2)
          (writeStmt ⟨inMethod, false⟩ stmt) := by
        rw [writeStmt_of_parts (List.ne_nil_of_mem hpart)]
        exact (within_writeParts hpart).append_right _
      exact ⟨_, (hinner.trans hwritten).trans (within_writeStmts _ hstmt)⟩
  | nested _ _ hfunction hscope =>
      obtain ⟨more, houter⟩ := hfunction
      obtain ⟨levels, hinner⟩ := hscope
      exact ⟨_, (((hinner.append_left _).indent.append_left _).append_right _).trans houter⟩

theorem Generated.common {inMethod : Bool} (h : Generated inMethod stmts scope)
    (hstmts : ∀ stmt ∈ stmts, Common stmt) : ∀ stmt ∈ scope.body, Common stmt := by
  have hchildren : ∀ {outer : Stmt}, Common outer → ∀ child ∈ outer.children, Common child :=
    fun houter => (Stmt.all_iff.mp houter).2
  induction h with
  | function hstmt => exact hchildren (hstmts _ hstmt)
  | method hclass hmember => exact hchildren (hchildren (hstmts _ hclass) _ hmember)
  | block hstmt hblock _ ih =>
      refine ih fun child hchild => ?_
      exact hchildren (hstmts _ hstmt) child (Stmt.mem_children_of_mem_block hblock hchild)
  | nested _ _ hfunction hscope => exact hscope (hfunction hstmts)

-- The program and each function that is written for it declare at their top exactly what they have
-- to, on a line of its own. Nothing to declare is no line.
theorem hoists_in_every_scope {tokens : List Token} {module : Module}
    (h : parseTokens .pythonScript tokens = .ok module) :
    (∃ names, Hoists module.body [] names ∧
      write .javaScript module = letLine names ++ writeStmts .toplevel module.body) ∧
    ∀ scope, Generated false module.body scope → ∃ names levels,
      Hoists scope.body scope.params names ∧
        Within levels (scope.lines names) (write .javaScript module) := by
  have hcommon := common_of_parseTokens h
  have hwritten : write .javaScript module =
      letLine (hoisted module.body []) ++ writeStmts .toplevel module.body := by
    rw [letLine_hoisted]
    rfl
  refine ⟨⟨_, hoists_hoisted hcommon [], hwritten⟩, fun scope hscope => ?_⟩
  obtain ⟨levels, hwithin⟩ := hscope.within
  refine ⟨_, levels, hoists_hoisted (hscope.common hcommon) scope.params, ?_⟩
  rw [hwritten]
  exact hwithin.append_left _

-- A class with one method, which assigns its receiver and its parameter in a loop, and a name that
-- comes up again behind it.
def resetTokens : List Token :=
  [⟨.keyword, "class", ⟨1, 1⟩⟩, ⟨.identifier, "C", ⟨1, 7⟩⟩, ⟨.operator, ":", ⟨1, 8⟩⟩,
    ⟨.newline, "\n", ⟨1, 9⟩⟩, ⟨.indent, "2", ⟨2, 3⟩⟩, ⟨.keyword, "def", ⟨2, 3⟩⟩,
    ⟨.identifier, "m", ⟨2, 7⟩⟩, ⟨.operator, "(", ⟨2, 8⟩⟩, ⟨.identifier, "self", ⟨2, 9⟩⟩,
    ⟨.operator, ",", ⟨2, 13⟩⟩, ⟨.identifier, "x", ⟨2, 15⟩⟩, ⟨.operator, ")", ⟨2, 16⟩⟩,
    ⟨.operator, ":", ⟨2, 17⟩⟩, ⟨.newline, "\n", ⟨2, 18⟩⟩, ⟨.indent, "4", ⟨3, 5⟩⟩,
    ⟨.keyword, "while", ⟨3, 5⟩⟩, ⟨.identifier, "x", ⟨3, 11⟩⟩, ⟨.operator, ":", ⟨3, 12⟩⟩,
    ⟨.newline, "\n", ⟨3, 13⟩⟩, ⟨.indent, "6", ⟨4, 7⟩⟩, ⟨.identifier, "b", ⟨4, 7⟩⟩,
    ⟨.operator, "=", ⟨4, 9⟩⟩, ⟨.identifier, "self", ⟨4, 11⟩⟩, ⟨.operator, "=", ⟨4, 16⟩⟩,
    ⟨.identifier, "x", ⟨4, 18⟩⟩, ⟨.operator, "=", ⟨4, 20⟩⟩, ⟨.number, "1", ⟨4, 22⟩⟩,
    ⟨.newline, "\n", ⟨4, 23⟩⟩, ⟨.dedent, "", ⟨5, 5⟩⟩, ⟨.identifier, "a", ⟨5, 5⟩⟩,
    ⟨.operator, "=", ⟨5, 7⟩⟩, ⟨.identifier, "b", ⟨5, 9⟩⟩, ⟨.operator, "=", ⟨5, 11⟩⟩,
    ⟨.number, "2", ⟨5, 13⟩⟩, ⟨.newline, "\n", ⟨5, 14⟩⟩, ⟨.dedent, "", ⟨6, 1⟩⟩,
    ⟨.dedent, "", ⟨6, 1⟩⟩, ⟨.eof, "", ⟨6, 1⟩⟩]

def resetBody : List Stmt :=
  [.whileDo (.var "x" ⟨3, 11⟩)
      [.assign [.var "b" ⟨4, 7⟩, .var "self" ⟨4, 11⟩, .var "x" ⟨4, 18⟩]
        (some (.number "1" ⟨4, 22⟩)) none ⟨4, 7⟩] ⟨3, 5⟩,
    .assign [.var "a" ⟨5, 5⟩, .var "b" ⟨5, 9⟩] (some (.number "2" ⟨5, 13⟩)) none ⟨5, 5⟩]

theorem hoists_in_every_scope_reset :
    ∃ module, parseTokens .pythonScript resetTokens = .ok module ∧
      Generated false module.body ⟨.method, "m", [⟨"x", .positional, none, ⟨2, 15⟩⟩], resetBody⟩ ∧
      ∃ names levels, Hoists resetBody [⟨"x", .positional, none, ⟨2, 15⟩⟩] names ∧
        Within levels
          (Scope.lines ⟨.method, "m", [⟨"x", .positional, none, ⟨2, 15⟩⟩], resetBody⟩ names)
          (write .javaScript module) := by
  let params : List Parameter :=
    [⟨"self", .positional, none, ⟨2, 9⟩⟩, ⟨"x", .positional, none, ⟨2, 15⟩⟩]
  have hparse : parseTokens .pythonScript resetTokens =
      .ok ⟨[.classDef "C" none [.functionDef "m" params resetBody ⟨2, 3⟩] ⟨1, 1⟩], ⟨1, 1⟩⟩ := rfl
  have hmethod : Generated false
      [.classDef "C" none [.functionDef "m" params resetBody ⟨2, 3⟩] ⟨1, 1⟩]
      ⟨.method, if "m" = "__init__" then "constructor" else "m", methodParams params, resetBody⟩ :=
    .method (List.mem_singleton_self _) (List.mem_singleton_self _)
  exact ⟨_, hparse, hmethod, (hoists_in_every_scope hparse).2 _ hmethod⟩

-- Three names are declared there.
example : hoisted resetBody [⟨"x", .positional, none, ⟨2, 15⟩⟩] = ["b", "self", "a"] := by
  decide +kernel

end Scopes

end Braced

end Diglot
