import Diglot.Proofs.Parser.Agree
import Diglot.Proofs.Shapes

namespace Diglot

namespace Expr

variable {e : Expr} {P : Expr → Prop}

-- The expressions inside an interpolated text.
def embedded : Expr → List Expr
  | interpolated segments _ => segments.filterMap (·.expr?)
  | _ => []

-- The expressions that stand directly in an expression, but for those inside an interpolated text.
def outer : Expr → List Expr
  | interpolated .. => []
  | e => e.children

theorem outer_or_embedded_of_mem_children {child : Expr} (h : child ∈ e.children) :
    child ∈ e.outer ∨ child ∈ e.embedded := by
  cases e with
  | interpolated segments pos => exact .inr h
  | _ => exact .inl h

-- An expression has a property, and so have all in it that are not inside an interpolated text.
inductive Outside (P : Expr → Prop) : Expr → Prop
  | node {e : Expr} (h : P e) (hparts : ∀ child ∈ e.outer, Outside P child) : Outside P e

theorem Outside.self (h : Outside P e) : P e := by
  cases h with
  | node h _ => exact h

theorem Outside.parts (h : Outside P e) : ∀ child ∈ e.outer, Outside P child := by
  cases h with
  | node _ hparts => exact hparts

theorem Outside.mono {Q : Expr → Prop} (hPQ : ∀ e, P e → Q e) (h : Outside P e) : Outside Q e := by
  induction h with
  | node h _ ih => exact .node (hPQ _ h) ih

end Expr

namespace Stmt

variable {child stmt : Stmt} {P : Stmt → Prop} {B : List Stmt → Prop}

-- The blocks of a statement.
def blocks : Stmt → List (List Stmt)
  | classDef _ _ body _ | functionDef _ _ body _ | forIn _ _ body _ | whileDo _ body _
  | forClauses _ _ _ body _ => [body]
  | ifElse _ body elifs orElse _ => body :: (elifs.map (·.body) ++ orElse.toList)
  | tryCatch body handler cleanup _ => body :: ((handler.map (·.body)).toList ++ cleanup.toList)
  | _ => []

-- The places of the parts of a statement that are neither expressions nor statements.
def partPlaces : Stmt → List Pos
  | functionDef _ params _ _ => params.map (·.pos)
  | ifElse _ _ elifs _ _ => elifs.map (·.pos)
  | tryCatch _ handler _ _ => handler.toList.map (·.pos)
  | _ => []

theorem mem_toList_of_mem_getD {body : Option (List Stmt)} (h : child ∈ body.getD []) :
    ∃ block ∈ body.toList, child ∈ block := by
  cases body with
  | none => cases h
  | some body => exact ⟨body, .head _, h⟩

theorem block_or_clause_of_mem_children (h : child ∈ stmt.children) :
    (∃ block ∈ stmt.blocks, child ∈ block) ∨ child ∈ stmt.clauses := by
  cases stmt with
  | classDef name base body pos | functionDef name params body pos | forIn target iteration body pos
  | whileDo condition body pos => exact .inl ⟨body, .head _, h⟩
  | ifElse condition body elifs orElse pos =>
      simp only [children, List.mem_append, List.mem_flatMap] at h
      simp only [blocks, List.mem_cons, List.mem_append]
      left
      rcases h with (h | ⟨clause, hclause, h⟩) | h
      · exact ⟨body, .inl rfl, h⟩
      · exact ⟨clause.body, .inr (.inl (List.mem_map_of_mem hclause)), h⟩
      · obtain ⟨block, hblock, h⟩ := mem_toList_of_mem_getD h
        exact ⟨block, .inr (.inr hblock), h⟩
  | forClauses init test update body pos =>
      rcases List.mem_append.mp h with h | h
      · exact .inr h
      · exact .inl ⟨body, .head _, h⟩
  | tryCatch body handler cleanup pos =>
      simp only [children, List.mem_append] at h
      simp only [blocks, List.mem_cons, List.mem_append]
      left
      rcases h with (h | h) | h
      · exact ⟨body, .inl rfl, h⟩
      · obtain ⟨block, hblock, h⟩ := mem_toList_of_mem_getD h
        exact ⟨block, .inr (.inl hblock), h⟩
      · obtain ⟨block, hblock, h⟩ := mem_toList_of_mem_getD h
        exact ⟨block, .inr (.inr hblock), h⟩
  | _ => cases h

-- A statement and all statements in it have a property, and all blocks in it have another.
inductive Throughout (P : Stmt → Prop) (B : List Stmt → Prop) : Stmt → Prop
  | node {stmt : Stmt} (h : P stmt) (hblocks : ∀ block ∈ stmt.blocks, B block)
      (hbodies : ∀ block ∈ stmt.blocks, ∀ child ∈ block, Throughout P B child)
      (hclauses : ∀ child ∈ stmt.clauses, Throughout P B child) : Throughout P B stmt

theorem Throughout.self (h : Throughout P B stmt) : P stmt := by
  cases h with
  | node h _ _ _ => exact h

theorem Throughout.mono {Q : Stmt → Prop} {C : List Stmt → Prop} (hPQ : ∀ stmt, P stmt → Q stmt)
    (hBC : ∀ block, B block → C block) (h : Throughout P B stmt) : Throughout Q C stmt := by
  induction h with
  | node h hblocks _ _ ih ihclauses =>
      exact .node (hPQ _ h) (fun block hblock => hBC block (hblocks block hblock)) ih ihclauses

end Stmt

namespace Parser.Setting

open TokenStream

variable (setting : Setting)

-- A node of the notation that says names and literals of the tokens and has the place of one.
structure NodeExpr (e : Expr) : Prop where
  shaped : e.isShaped setting.dialect = true
  words : ∀ text ∈ e.words, setting.IsWord text
  literals : ∀ literal ∈ e.literals, setting.IsLiteral literal
  place : setting.IsPlace e.pos
  embedded : ∀ child ∈ e.embedded, child.Shaped setting.dialect

-- An expression that is made from the tokens.
abbrev IsExpr (e : Expr) : Prop := e.Outside setting.NodeExpr

structure NodeStmt (stmt : Stmt) : Prop where
  formed : stmt.isFormed = true
  isOf : stmt.isOf setting.dialect = true
  words : ∀ text ∈ stmt.words, setting.IsWord text
  place : setting.IsPlace stmt.pos
  parts : ∀ pos ∈ stmt.partPlaces, setting.IsPlace pos
  exprs : ∀ e ∈ stmt.exprs, setting.IsExpr e
  clauses : ∀ clause ∈ stmt.clauses, Indented.isClause clause = true

-- Statements whose places stand in the order of the tokens.
def InOrder (body : List Stmt) : Prop :=
  (body.map (·.pos)).Sublist (setting.tokens.map (·.pos))

-- A statement that is made from the tokens.
abbrev IsStmt (stmt : Stmt) : Prop := stmt.Throughout setting.NodeStmt setting.InOrder

structure IsBody (body : List Stmt) : Prop where
  ordered : setting.InOrder body
  stmts : ∀ stmt ∈ body, setting.IsStmt stmt

structure IsModule (module : Module) : Prop where
  place : setting.IsPlace module.pos
  body : setting.IsBody module.body

variable {setting : Setting}

section Expressions

variable {e object left right : Expr} {pos : Pos} {name : String}

theorem IsExpr.shaped (h : setting.IsExpr e) : e.Shaped setting.dialect := by
  induction h with
  | node h _ ih =>
      refine Expr.shaped_iff.mpr ⟨h.shaped, fun child hchild => ?_⟩
      rcases Expr.outer_or_embedded_of_mem_children hchild with hchild | hchild
      · exact ih child hchild
      · exact h.embedded child hchild

theorem isExpr_of_words (hshaped : e.isShaped setting.dialect = true)
    (hwords : ∀ text ∈ e.words, setting.IsWord text)
    (hplain : e.literals = [] ∧ e.embedded = []) (hplace : setting.IsPlace e.pos)
    (hparts : ∀ child ∈ e.outer, setting.IsExpr child) : setting.IsExpr e :=
  .node ⟨hshaped, hwords, by simp [hplain], hplace, by simp [hplain]⟩ hparts

-- An expression that says nothing but what the expressions in it say.
theorem isExpr_of_parts (hshaped : e.isShaped setting.dialect = true)
    (hplain : e.words = [] ∧ e.literals = [] ∧ e.embedded = [])
    (hplace : setting.IsPlace e.pos) (hparts : ∀ child ∈ e.outer, setting.IsExpr child) :
    setting.IsExpr e :=
  isExpr_of_words hshaped (by simp [hplain]) hplain.2 hplace hparts

theorem isExpr_var (hname : setting.IsWord name) (hpos : setting.IsPlace pos) :
    setting.IsExpr (.var name pos) :=
  isExpr_of_words (by cases setting.dialect <;> rfl) (by simpa [Expr.words] using hname) ⟨rfl, rfl⟩
    hpos (by simp [Expr.outer, Expr.children])

theorem isExpr_number {literal : String} (hliteral : setting.IsLiteral (.number, literal))
    (hpos : setting.IsPlace pos) : setting.IsExpr (.number literal pos) :=
  .node ⟨by cases setting.dialect <;> rfl, by simp [Expr.words],
    by simpa [Expr.literals] using hliteral, hpos, by simp [Expr.embedded]⟩
    (by simp [Expr.outer, Expr.children])

theorem isExpr_member (hname : setting.IsWord name) (hpos : setting.IsPlace pos)
    (h : setting.IsExpr object) : setting.IsExpr (.member object name pos) :=
  isExpr_of_words (by cases setting.dialect <;> rfl) (by simpa [Expr.words] using hname) ⟨rfl, rfl⟩
    hpos (by simp [Expr.outer, Expr.children, h])

theorem isExpr_binary {op : BinaryOp} (hop : setting.dialect = .javaScript → op ≠ .floorDivide)
    (hpos : setting.IsPlace pos) (hleft : setting.IsExpr left) (hright : setting.IsExpr right) :
    setting.IsExpr (.binary op left right pos) := by
  refine isExpr_of_parts ?_ ⟨rfl, rfl, rfl⟩ hpos (by simp [Expr.outer, Expr.children, hleft, hright])
  cases hdialect : setting.dialect with
  | pythonScript => rfl
  | javaScript =>
      cases op with
      | floorDivide => exact absurd rfl (hop hdialect)
      | _ => rfl

theorem isExpr_logical {op : BoolOp} (hpos : setting.IsPlace pos) (hleft : setting.IsExpr left)
    (hright : setting.IsExpr right) : setting.IsExpr (.logical op left right pos) :=
  isExpr_of_parts (by cases setting.dialect <;> rfl) ⟨rfl, rfl, rfl⟩ hpos
    (by simp [Expr.outer, Expr.children, hleft, hright])

-- An entry of a dictionary that is made from the tokens.
structure IsEntry (setting : Setting) (entry : DictEntry Expr) : Prop where
  number : ∀ text ∈ entry.key.number?, setting.IsLiteral (.number, text)
  exprs : ∀ e ∈ entry.exprs, setting.IsExpr e

variable (hpos : setting.IsPlace pos)

include hpos

theorem isExpr_unary (op : UnaryOp) {operand : Expr} (h : setting.IsExpr operand) :
    setting.IsExpr (.unary op operand pos) :=
  isExpr_of_parts (by cases setting.dialect <;> rfl) ⟨rfl, rfl, rfl⟩ hpos
    (by simp [Expr.outer, Expr.children, h])

theorem isExpr_index {index : Expr} (hobject : setting.IsExpr object)
    (hindex : setting.IsExpr index) : setting.IsExpr (.index object index pos) :=
  isExpr_of_parts (by cases setting.dialect <;> rfl) ⟨rfl, rfl, rfl⟩ hpos
    (by simp [Expr.outer, Expr.children, hobject, hindex])

theorem isExpr_conditional {test consequent alternate : Expr} (htest : setting.IsExpr test)
    (hconsequent : setting.IsExpr consequent) (halternate : setting.IsExpr alternate) :
    setting.IsExpr (.conditional test consequent alternate pos) :=
  isExpr_of_parts (by cases setting.dialect <;> rfl) ⟨rfl, rfl, rfl⟩ hpos
    (by simp [Expr.outer, Expr.children, htest, hconsequent, halternate])

theorem isExpr_call {callee : Expr} {args : List Expr} (hcallee : setting.IsExpr callee)
    (hargs : ∀ e ∈ args, setting.IsExpr e) : setting.IsExpr (.call callee args pos) :=
  isExpr_of_parts (by cases setting.dialect <;> rfl) ⟨rfl, rfl, rfl⟩ hpos
    (List.forall_mem_cons.mpr ⟨hcallee, hargs⟩)

theorem isExpr_list {elements : List Expr} (h : ∀ e ∈ elements, setting.IsExpr e) :
    setting.IsExpr (.list elements pos) :=
  isExpr_of_parts (by cases setting.dialect <;> rfl) ⟨rfl, rfl, rfl⟩ hpos h

theorem isExpr_dict {entries : List (DictEntry Expr)}
    (h : ∀ entry ∈ entries, setting.IsEntry entry) : setting.IsExpr (.dict entries pos) := by
  refine .node ⟨by cases setting.dialect <;> rfl, by simp [Expr.words], fun literal hliteral => ?_,
    hpos, by simp [Expr.embedded]⟩ fun e he => ?_
  · obtain ⟨text, htext, rfl⟩ := List.mem_map.mp hliteral
    obtain ⟨entry, hentry, htext⟩ := List.mem_filterMap.mp htext
    exact (h entry hentry).number text htext
  · obtain ⟨entry, hentry, he⟩ := List.mem_flatMap.mp he
    exact (h entry hentry).exprs e he

end Expressions

section Statements

variable {stmt : Stmt} {pos : Pos} {value condition : Expr} {name : String} {body : List Stmt}

theorem IsStmt.shaped (h : setting.IsStmt stmt) : stmt.Shaped setting.dialect := by
  induction h with
  | node h _ _ _ ih ihclauses =>
      refine Stmt.shaped_iff.mpr ⟨⟨h.formed, h.isOf⟩, fun e he => (h.exprs e he).shaped,
        fun child hchild => ?_⟩
      rcases Stmt.block_or_clause_of_mem_children hchild with ⟨block, hblock, hchild⟩ | hchild
      · exact ih block hblock child hchild
      · exact ihclauses child hchild

theorem IsStmt.clausal (h : setting.IsStmt stmt) : stmt.Clausal := by
  induction h with
  | node h _ _ _ ih ihclauses =>
      refine Stmt.all_iff.mpr ⟨List.all_eq_true.mpr h.clauses, fun child hchild => ?_⟩
      rcases Stmt.block_or_clause_of_mem_children hchild with ⟨block, hblock, hchild⟩ | hchild
      · exact ih block hblock child hchild
      · exact ihclauses child hchild

theorem isBody_singleton (h : setting.IsStmt stmt) : setting.IsBody [stmt] :=
  ⟨List.singleton_sublist.mpr h.self.place, by simpa using h⟩

theorem isStmt_of_blocks (h : setting.NodeStmt stmt)
    (hblocks : ∀ block ∈ stmt.blocks, setting.IsBody block) (hclauses : stmt.clauses = []) :
    setting.IsStmt stmt :=
  .node h (fun block hblock => (hblocks block hblock).ordered)
    (fun block hblock => (hblocks block hblock).stmts) (by simp [hclauses])

-- A statement that holds nothing but expressions.
theorem isStmt_of_exprs (hformed : stmt.isFormed = true) (hof : stmt.isOf setting.dialect = true)
    (hplain : (stmt.words = [] ∧ stmt.partPlaces = []) ∧ stmt.blocks = [] ∧ stmt.clauses = [])
    (hplace : setting.IsPlace stmt.pos) (hexprs : ∀ e ∈ stmt.exprs, setting.IsExpr e) :
    setting.IsStmt stmt :=
  isStmt_of_blocks ⟨hformed, hof, by simp [hplain], hplace, by simp [hplain], hexprs,
    by simp [hplain]⟩ (by simp [hplain]) hplain.2.2

-- A parameter that is made from the tokens.
structure IsParameter (setting : Setting) (param : Parameter) : Prop where
  formed : param.isFormed = true
  isOf : setting.dialect = .javaScript → param.kind ≠ .keywordCollector
  word : setting.IsWord param.name
  place : setting.IsPlace param.pos
  default : ∀ e ∈ param.default, setting.IsExpr e

-- A further branch that is made from the tokens.
structure IsBranch (setting : Setting) (clause : ElifClause Stmt) : Prop where
  condition : setting.IsExpr clause.condition
  body : setting.IsBody clause.body
  place : setting.IsPlace clause.pos

-- A handler that is made from the tokens.
structure IsHandler (setting : Setting) (handler : Handler Stmt) : Prop where
  word : ∀ text ∈ handler.name, setting.IsWord text
  body : setting.IsBody handler.body
  place : setting.IsPlace handler.pos

variable (hpos : setting.IsPlace pos)

include hpos

theorem isStmt_expr (h : setting.IsExpr value) : setting.IsStmt (.expr value pos) :=
  isStmt_of_exprs rfl (by cases setting.dialect <;> rfl) ⟨⟨rfl, rfl⟩, rfl, rfl⟩ hpos
    (by simpa [Stmt.exprs] using h)

theorem isStmt_print {args : List Expr} (h : ∀ e ∈ args, setting.IsExpr e) :
    setting.IsStmt (.print args pos) :=
  isStmt_of_exprs rfl (by cases setting.dialect <;> rfl) ⟨⟨rfl, rfl⟩, rfl, rfl⟩ hpos h

theorem isStmt_returns {value : Option Expr} (h : ∀ e ∈ value, setting.IsExpr e) :
    setting.IsStmt (.returns value pos) :=
  isStmt_of_exprs rfl (by cases setting.dialect <;> rfl) ⟨⟨rfl, rfl⟩, rfl, rfl⟩ hpos
    (by simpa [Stmt.exprs] using h)

theorem isStmt_assign {targets : List Expr} (hne : targets ≠ [])
    (htargets : ∀ e ∈ targets, setting.IsExpr e ∧ e.isAssignable = true)
    (hvalue : setting.IsExpr value) : setting.IsStmt (.assign targets (some value) none pos) := by
  refine isStmt_of_exprs ?_ (by cases setting.dialect <;> rfl) ⟨⟨rfl, rfl⟩, rfl, rfl⟩ hpos ?_
  · simpa [Stmt.isFormed, hne] using fun e he => (htargets e he).2
  · simp only [Stmt.exprs, List.forall_mem_append]
    exact ⟨fun e he => (htargets e he).1, by simpa using hvalue⟩

theorem isStmt_augAssign {target : Expr} {op : BinaryOp}
    (hop : setting.dialect = .javaScript → op ≠ .floorDivide)
    (hassignable : target.isAssignable = true) (htarget : setting.IsExpr target)
    (hvalue : setting.IsExpr value) : setting.IsStmt (.augAssign target op value pos) := by
  refine isStmt_of_exprs hassignable ?_ ⟨⟨rfl, rfl⟩, rfl, rfl⟩ hpos
    (by simp [Stmt.exprs, htarget, hvalue])
  cases hdialect : setting.dialect with
  | pythonScript => rfl
  | javaScript =>
      cases op with
      | floorDivide => exact absurd rfl (hop hdialect)
      | _ => rfl

theorem isStmt_imports {path : String} {kind : ImportKind}
    (hkind : ∀ text ∈ kind.words, setting.IsWord text) : setting.IsStmt (.imports path kind pos) :=
  isStmt_of_blocks ⟨rfl, by cases setting.dialect <;> rfl, hkind, hpos, by simp [Stmt.partPlaces],
    by simp [Stmt.exprs], nofun⟩ (by simp [Stmt.blocks]) rfl

theorem isStmt_classDef {base : Option String} (hname : setting.IsWord name)
    (hbase : ∀ text ∈ base, setting.IsWord text) (hbody : setting.IsBody body) :
    setting.IsStmt (.classDef name base body pos) :=
  isStmt_of_blocks ⟨rfl, by cases setting.dialect <;> rfl,
    List.forall_mem_cons.mpr ⟨hname, by simpa using hbase⟩, hpos, by simp [Stmt.partPlaces],
    by simp [Stmt.exprs], nofun⟩ (by simpa [Stmt.blocks] using hbody) rfl

theorem isStmt_functionDef {params : List Parameter} (hname : setting.IsWord name)
    (hparams : ∀ param ∈ params, setting.IsParameter param) (hbody : setting.IsBody body) :
    setting.IsStmt (.functionDef name params body pos) := by
  refine isStmt_of_blocks ⟨?_, ?_, ?_, hpos, ?_, fun e he => ?_, nofun⟩
    (by simpa [Stmt.blocks] using hbody) rfl
  · exact List.all_eq_true.mpr fun param hparam => (hparams param hparam).formed
  · cases hdialect : setting.dialect with
    | pythonScript => rfl
    | javaScript =>
        exact List.all_eq_true.mpr fun param hparam =>
          bne_iff_ne.mpr ((hparams param hparam).isOf hdialect)
  · refine List.forall_mem_cons.mpr ⟨hname, List.forall_mem_map.mpr fun param hparam => ?_⟩
    exact (hparams param hparam).word
  · exact List.forall_mem_map.mpr fun param hparam => (hparams param hparam).place
  · obtain ⟨param, hparam, hdefault⟩ := List.mem_filterMap.mp he
    exact (hparams param hparam).default e hdefault

theorem isStmt_ifElse {elifs : List (ElifClause Stmt)} {orElse : Option (List Stmt)}
    (hcondition : setting.IsExpr condition) (hbody : setting.IsBody body)
    (helifs : ∀ clause ∈ elifs, setting.IsBranch clause)
    (horElse : ∀ body ∈ orElse, setting.IsBody body) :
    setting.IsStmt (.ifElse condition body elifs orElse pos) := by
  refine isStmt_of_blocks ⟨rfl, by cases setting.dialect <;> rfl, by simp [Stmt.words], hpos, ?_, ?_,
    nofun⟩ ?_ rfl
  · exact List.forall_mem_map.mpr fun clause hclause => (helifs clause hclause).place
  · exact List.forall_mem_cons.mpr ⟨hcondition,
      List.forall_mem_map.mpr fun clause hclause => (helifs clause hclause).condition⟩
  · simp only [Stmt.blocks, List.forall_mem_cons, List.forall_mem_append, List.forall_mem_map,
      Option.mem_toList]
    exact ⟨hbody, fun clause hclause => (helifs clause hclause).body, horElse⟩

theorem isStmt_whileDo (hcondition : setting.IsExpr condition) (hbody : setting.IsBody body) :
    setting.IsStmt (.whileDo condition body pos) :=
  isStmt_of_blocks ⟨rfl, by cases setting.dialect <;> rfl, by simp [Stmt.words], hpos,
    by simp [Stmt.partPlaces], by simpa [Stmt.exprs] using hcondition, nofun⟩
    (by simpa [Stmt.blocks] using hbody) rfl

theorem isStmt_forIn {target : String} {iteration : Iteration} (htarget : setting.IsWord target)
    (hiteration : iteration.isFormed = true ∧ ∀ e ∈ iteration.exprs, setting.IsExpr e)
    (hbody : setting.IsBody body) : setting.IsStmt (.forIn target iteration body pos) :=
  isStmt_of_blocks ⟨hiteration.1, by cases setting.dialect <;> rfl,
    by simpa [Stmt.words] using htarget, hpos, by simp [Stmt.partPlaces], hiteration.2, nofun⟩
    (by simpa [Stmt.blocks] using hbody) rfl

theorem isStmt_tryCatch {handler : Option (Handler Stmt)} {cleanup : Option (List Stmt)}
    (hbody : setting.IsBody body) (hhandler : ∀ found ∈ handler, setting.IsHandler found)
    (hcleanup : ∀ body ∈ cleanup, setting.IsBody body)
    (hsome : ¬ (handler.isNone && cleanup.isNone) = true) :
    setting.IsStmt (.tryCatch body handler cleanup pos) := by
  refine isStmt_of_blocks ⟨?_, by cases setting.dialect <;> rfl, ?_, hpos, ?_, by simp [Stmt.exprs],
    nofun⟩ ?_ rfl
  · cases handler <;> cases cleanup <;> simp_all [Stmt.isFormed]
  · intro text htext
    obtain ⟨found, hfound, hname⟩ := Option.bind_eq_some_iff.mp (Option.mem_toList.mp htext)
    exact (hhandler found hfound).word text hname
  · exact List.forall_mem_map.mpr fun found hfound =>
      (hhandler found (Option.mem_toList.mp hfound)).place
  · simp only [Stmt.blocks, List.forall_mem_cons, List.forall_mem_append, Option.mem_toList]
    refine ⟨hbody, fun block hblock => ?_, hcleanup⟩
    obtain ⟨found, hfound, rfl⟩ := Option.map_eq_some_iff.mp hblock
    exact (hhandler found hfound).body

end Statements

section Readers

variable (setting) (n : Nat)

-- Two readers that agree on an expression.
abbrev ReadsExpr (x y : Parser Expr) : Prop := setting.Agree n strict setting.IsExpr x y

-- Two readers that agree on a statement which starts at a token.
abbrev ReadsForm (token : Token) (u v : Parser Stmt) : Prop :=
  setting.AgreeOn token n strict (fun stmt => setting.IsStmt stmt ∧ stmt.pos = token.pos) u v

-- A statement has the place of a token that is read in front of what is left.
def Marked (s : TokenStream) (stmt : Stmt) (t : TokenStream) : Prop :=
  (stmt.pos :: t.tokens.map (·.pos)).Sublist (s.tokens.map (·.pos))

def ReadsOn (token : Token) (u v : Parser Stmt) : Prop :=
  ∀ s, setting.Holds s → s.size ≤ n → s.current = token →
    setting.Meets strict (fun stmt t => setting.IsStmt stmt ∧ Marked s stmt t) s (u s) (v s)

-- Two readers that agree on a statement, wherever it starts.
def ReadsStmt (u v : Parser Stmt) : Prop :=
  ∀ token ∈ setting.tokens, setting.ReadsOn n token u v

variable {setting} {n} {token : Token} {u v : Parser Stmt} {s t : TokenStream}

theorem sublist_of_reaches (hs : setting.Holds s) (hreach : s.Reaches t) :
    (t.tokens.map (·.pos)).Sublist (s.tokens.map (·.pos)) := by
  obtain ⟨-, passed, hpassed, -⟩ := hreach.passes hs.ended
  rw [hpassed, List.map_append]
  exact List.sublist_append_right _ _

theorem ReadsOn.of_form (h : setting.ReadsForm n token u v) : setting.ReadsOn n token u v := by
  rintro s hs hsize rfl
  refine (h s hs hsize rfl).mono (fun _ => Nat.le_refl _) fun stmt t hreach hless hstmt => ?_
  refine ⟨hstmt.1, ?_⟩
  obtain ⟨-, passed, hpassed, -⟩ := hreach.passes hs.ended
  cases passed with
  | nil =>
      have hlength := congrArg List.length hpassed
      simp only [List.nil_append, length_tokens, strict] at hlength hless
      omega
  | cons first passed =>
      have hfirst : s.current = first := (List.cons.inj hpassed).1
      rw [Marked, hpassed, hstmt.2, hfirst, List.cons_append, List.map_cons, List.map_append]
      exact (List.sublist_append_right _ _).cons_cons _

theorem ReadsStmt.none : setting.ReadsStmt 0 u v :=
  fun _ _ _ _ hsize => absurd hsize (Nat.not_succ_le_zero _)

theorem ReadsStmt.of_forms (h : ∀ token ∈ setting.tokens, setting.ReadsForm n token u v) :
    setting.ReadsStmt n u v :=
  fun token htoken => .of_form (h token htoken)

theorem ReadsStmt.meets (h : setting.ReadsStmt n u v) (hs : setting.Holds s) (hsize : s.size ≤ n) :
    setting.Meets strict (fun stmt t => setting.IsStmt stmt ∧ Marked s stmt t) s (u s) (v s) :=
  h s.current hs.current_mem s hs hsize rfl

theorem ReadsStmt.agree (h : setting.ReadsStmt n u v) : setting.Agree n strict setting.IsStmt u v :=
  fun _ hs hsize => (h.meets hs hsize).mono (fun _ => Nat.le_refl _) fun _ _ _ _ hstmt => hstmt.1

theorem ReadsStmt.within {m : Nat} (h : setting.ReadsStmt n u v) (hm : m ≤ n) :
    setting.ReadsStmt m u v :=
  fun token htoken s hs hsize => h token htoken s hs (Nat.le_trans hsize hm)

theorem ReadsStmt.look {f g : Token → Parser Stmt}
    (h : ∀ token ∈ setting.tokens, setting.ReadsOn n token (f token) (g token)) :
    setting.ReadsStmt n (current >>= f) (current >>= g) := by
  rintro token htoken s hs hsize rfl
  exact h s.current htoken s hs hsize rfl

-- A statement behind something else that is read.
theorem ReadsStmt.behind {α : Type} {P : α → Prop} {p : Parser α}
    (hp : setting.Agree n lax P p p) (h : setting.ReadsStmt n u v) :
    setting.ReadsStmt n (p >>= fun _ => u) (p >>= fun _ => v) := by
  intro token _ s hs hsize _
  refine Meets.bind hs (hp s hs hsize) fun a t _ hreach ht hless _ => ?_
  refine (h.meets ht (Nat.le_trans hless hsize)).mono (fun _ => Nat.le_refl _)
    fun stmt _ _ _ hstmt => ⟨hstmt.1, ?_⟩
  exact hstmt.2.trans (sublist_of_reaches hs hreach)

-- Statements that are read one after the other stand in the order of the tokens.
theorem repeated_agree {skip : Parser Unit} {stop : Parser Bool} {k : Unit → Nat} {l : Bool → Nat}
    {S : Unit → Prop} {A : Bool → Prop} {i j : Nat} (hskip : setting.Agree n k S skip skip)
    (hstop : setting.Agree n l A stop stop) (hu : setting.ReadsStmt n u v) (hi : n ≤ i)
    (hj : n ≤ j) :
    setting.Agree n lax setting.IsBody (repeated skip stop u i) (repeated skip stop v j) := by
  suffices hmarked : ∀ m ≤ n, ∀ i j s, m ≤ i → m ≤ j → setting.Holds s → s.size ≤ m →
      setting.Meets lax (fun body _ => (∀ stmt ∈ body, setting.IsStmt stmt) ∧
        (body.map (·.pos)).Sublist (s.tokens.map (·.pos))) s (repeated skip stop u i s)
          (repeated skip stop v j s) by
    intro s hs hsize
    refine (hmarked n (Nat.le_refl n) i j s hi hj hs hsize).mono (fun _ => Nat.le_refl _)
      fun body _ _ _ hbody => ⟨?_, hbody.1⟩
    exact hbody.2.trans (hs.isSuffix.sublist.map _)
  intro m hm
  induction m with
  | zero => exact fun i j s _ _ _ hsize => absurd hsize (Nat.not_succ_le_zero _)
  | succ m ih =>
      intro i j s hi hj hs hsize
      obtain ⟨i, rfl⟩ := Nat.exists_eq_add_one.mpr (Nat.zero_lt_of_lt hi)
      obtain ⟨j, rfl⟩ := Nat.exists_eq_add_one.mpr (Nat.zero_lt_of_lt hj)
      have hi := Nat.le_of_succ_le_succ hi
      have hj := Nat.le_of_succ_le_succ hj
      refine Meets.bind hs (hskip s hs (by omega)) fun _ t _ hst ht hless _ => ?_
      refine Meets.bind ht (hstop t ht (by omega)) fun stopped r _ htr hr hfewer _ => ?_
      have hsr := sublist_of_reaches hs (hst.trans htr)
      cases stopped with
      | true =>
          refine ⟨rfl, fun heq => ?_, fun heq => by cases heq⟩
          cases heq
          exact ⟨.refl _, by simp [lax], by simp, List.nil_sublist _⟩
      | false =>
          refine Meets.bind hr (hu.meets hr (by omega)) fun stmt w _ _ hw hfew hstmt => ?_
          simp only [strict] at hfew
          refine Meets.bind hw (ih (by omega) i j w hi hj hw (by omega)) fun rest z _ _ _ _ hrest => ?_
          refine ⟨rfl, fun heq => ?_, fun heq => by cases heq⟩
          cases heq
          refine ⟨.refl _, by simp [lax], List.forall_mem_cons.mpr ⟨hstmt.1, hrest.1⟩, ?_⟩
          exact ((hrest.2.cons_cons _).trans hstmt.2).trans hsr

end Readers

end Parser.Setting

end Diglot
