import Diglot.Proofs.Parser.Trees

namespace Diglot.Braced

open Diglot.Parser Setting

-- The tokens at which something is understood and not supported.
inductive Refused : Token → String → Prop
  | several {token : Token} (h : token.isOperator "," = true) :
      Refused token "declaring several variables in one statement is not supported"
  | standalone {token : Token} (h : token.isOperator "\x7b" = true) :
      Refused token "standalone blocks are not supported"

-- That is a failure of the notation's own.
def setting (tokens : List Token) : Setting where
  dialect := .javaScript
  tokens := tokens
  Own s failure := ∃ explanation, Refused s.current explanation ∧ failure = s.refused explanation

-- The settings that suit the notation.
class Suits (S : Setting) : Prop where
  dialect : S.dialect = .javaScript
  own : ∀ s explanation, Refused s.current explanation → S.Own s (s.refused explanation)

instance (tokens : List Token) : Suits (setting tokens) := ⟨rfl, fun _ _ h => ⟨_, h, rfl⟩⟩

variable {S : Setting} {e : Expr}

section Expressions

variable {pos : Pos}

theorem isExpr_comparison {op : CompareOp} {left right : Expr} (hop : op.isOrder = true)
    (hpos : S.IsPlace pos) (hleft : S.IsExpr left) (hright : S.IsExpr right) :
    S.IsExpr (comparison op left right pos) :=
  isExpr_of_parts (by cases hdialect : S.dialect <;> exact hop)
    ⟨rfl, rfl, rfl⟩ hpos (by simp [comparison, Expr.outer, Expr.children, hleft, hright])

theorem isExpr_path {path : List String} (hpath : ∀ name ∈ path, S.IsWord name)
    {object : Expr} (hpos : S.IsPlace pos) (h : S.IsExpr object) :
    S.IsExpr (path.foldl (fun object name => .member object name pos) object) := by
  induction path generalizing object with
  | nil => exact h
  | cons name path ih =>
      obtain ⟨hname, hpath⟩ := List.forall_mem_cons.mp hpath
      exact ih hpath (isExpr_member hname hpos h)

theorem isExpr_construct [Suits S] {callee : Expr} {args : List Expr} (hpos : S.IsPlace pos)
    (hcallee : S.IsExpr callee) (hargs : ∀ e ∈ args, S.IsExpr e) :
    S.IsExpr (.construct callee args pos) :=
  isExpr_of_parts (by rw [Suits.dialect]; rfl) ⟨rfl, rfl, rfl⟩ hpos
    (List.forall_mem_cons.mpr ⟨hcallee, hargs⟩)

end Expressions

section CountingLoops

variable {stmt : Stmt} {target : String} {op : CompareOp} {amount : Expr}

theorem initialised_isExpr (h : S.IsStmt stmt) {start : Expr}
    (hstart : initialised? stmt = some (target, start)) :
    S.IsWord target ∧ S.IsExpr start := by
  unfold initialised? at hstart
  split at hstart
  · rename_i found value declaration pos
    obtain ⟨name, hvar, hname⟩ := Option.map_eq_some_iff.mp hstart
    cases hname
    have hexprs := h.self.exprs
    refine ⟨?_, hexprs start (by simp [Stmt.exprs])⟩
    cases found with
    | var name namePos =>
        cases hvar
        have hfound := hexprs (.var target namePos) (by simp [Stmt.exprs])
        exact hfound.self.words target (by simp [Expr.words])
    | _ => cases hvar
  · cases hstart

theorem bounded_isExpr {e : Expr} (h : S.IsExpr e) {stop : Expr}
    (hstop : bounded? target e = some (op, stop)) : S.IsExpr stop := by
  unfold bounded? at hstop
  split at hstop
  · split at hstop
    · cases hstop
      exact h.parts stop (by simp [Expr.outer, Expr.children])
    · cases hstop
  · cases hstop

theorem changed_isExpr (h : S.IsStmt stmt) {op : BinaryOp}
    (hamount : changed? target stmt = some (op, amount)) : S.IsExpr amount := by
  unfold changed? at hamount
  split at hamount
  · split at hamount
    · cases hamount
      exact h.self.exprs amount (by simp [Stmt.exprs])
    · cases hamount
  · cases hamount

theorem step_isExpr {change : BinaryOp} (h : S.IsExpr amount) {step : Option Expr}
    (hstep : step? op change amount = some step) : ∀ e ∈ step, S.IsExpr e := by
  unfold step? at hstep
  split at hstep
  · cases hstep
    split
    · simp
    · simpa using h
  · cases hstep
    simpa using isExpr_unary h.self.place .negate h
  · cases hstep

-- A loop that counts runs over the parts of its clauses, and its start is left out only without a
-- step.
theorem countingLoop_isExpr {init update : Option Stmt} {test : Option Expr} {iteration : Iteration}
    (hinit : ∀ stmt ∈ init, S.IsStmt stmt) (htest : ∀ e ∈ test, S.IsExpr e)
    (hupdate : ∀ stmt ∈ update, S.IsStmt stmt)
    (h : countingLoop? init test update = some (target, iteration)) :
    S.IsWord target ∧ iteration.isFormed = true ∧ ∀ e ∈ iteration.exprs, S.IsExpr e := by
  simp only [countingLoop?, bind, Option.bind_eq_some_iff] at h
  obtain ⟨init, rfl, ⟨name, start⟩, hstart, test, rfl, ⟨op, stop⟩, hstop, update, rfl,
    ⟨change, amount⟩, hamount, step, hstep, h⟩ := h
  cases h
  obtain ⟨htarget, hstart⟩ := initialised_isExpr (hinit init rfl) hstart
  have hsteps := step_isExpr (changed_isExpr (hupdate update rfl) hamount) hstep
  have hstop := bounded_isExpr (htest test rfl) hstop
  refine ⟨htarget, ?_, ?_⟩
  · cases step with
    | none => rfl
    | some step => simp [Iteration.isFormed]
  · simp only [Iteration.exprs, List.forall_mem_append, List.forall_mem_cons, Option.mem_toList]
    refine ⟨?_, hstop, hsteps⟩
    split
    · simp
    · simpa using hstart

end CountingLoops

section Clauses

open Indented (isClause)

variable {x : Parser Expr} {i : Nat}

theorem assignment_gives (first : Expr) (pos : Pos) :
    Gives (isClause · = true) (assignment x i first pos) :=
  .next fun _ => .next fun _ => .pure rfl

theorem augmented_gives (op : BinaryOp) (target : Expr) (pos : Pos) :
    Gives (isClause · = true) (augmented x op target pos) :=
  .next fun _ => .next fun _ => .next fun _ => .pure rfl

theorem inlineStatement_gives : Gives (isClause · = true) (inlineStatement x i) := by
  refine .next fun pos => .next fun found => ?_
  cases found with
  | some op => exact .next fun _ => .next fun _ => .pure rfl
  | none =>
      refine .next fun first => .next fun token => .ite (assignment_gives first pos) ?_
      cases augmentedOps.find? (fun entry => token.isOperator entry.1) with
      | some entry => exact augmented_gives entry.2 first pos
      | none =>
          dsimp only
          cases incrementOps.find? (fun entry => token.isOperator entry.1) with
          | some entry => exact .next fun _ => .next fun _ => .pure rfl
          | none => exact .pure rfl

theorem declare_gives (declaration : Declaration) :
    Gives (isClause · = true) (declare x declaration) := by
  have hrest : ∀ (name : String) (namePos pos : Pos) (value : Option Expr),
      Gives (isClause · = true) (do
        if ← checkOperator "," then
          refused "declaring several variables in one statement is not supported"
        else return Stmt.assign [.var name namePos] value (some declaration) pos) :=
    fun _ _ _ _ => .next fun _ => .ite (.next fun _ => .throw _) (.pure rfl)
  exact .next fun _ => .next fun _ => .next fun _ => .next fun _ => .next fun _ =>
    .ite (.next fun _ => .next fun _ => hrest _ _ _ _) (.next fun _ => hrest _ _ _ _)

end Clauses

section Statements

variable {pos : Pos}

theorem recognizePrint_isStmt {found : Stmt} (h : S.IsStmt found) :
    S.IsStmt (recognizePrint found) ∧ (recognizePrint found).pos = found.pos := by
  unfold recognizePrint
  split
  · rename_i callee args place pos
    split
    · have hcall : S.IsExpr (.call callee args place) :=
        h.self.exprs _ (by simp [Stmt.exprs])
      exact ⟨isStmt_print h.self.place fun e he => hcall.parts e (.tail _ he), rfl⟩
    · exact ⟨h, rfl⟩
  · exact ⟨h, rfl⟩

-- One variable with a value that need not be there, as declarations and members of classes have it.
theorem isStmt_variable [Suits S] {name : String} (hname : S.IsWord name) {value : Option Expr}
    (declaration : Option Declaration) {namePos : Pos} (hnamePos : S.IsPlace namePos)
    (hpos : S.IsPlace pos) (hvalue : ∀ e ∈ value, S.IsExpr e) :
    S.IsStmt (.assign [.var name namePos] value declaration pos) := by
  refine isStmt_of_exprs rfl (by rw [Suits.dialect]; rfl) ⟨⟨rfl, rfl⟩, rfl, rfl⟩ hpos ?_
  simp only [Stmt.exprs, List.forall_mem_append, List.forall_mem_singleton, Option.mem_toList]
  exact ⟨isExpr_var hname hnamePos, hvalue⟩

-- Adding or subtracting one.
theorem isStmt_increment {target : Expr} {op : BinaryOp} (hpos : S.IsPlace pos)
    (hop : op ∈ incrementOps.map (·.2)) (hassignable : target.isAssignable = true)
    (htarget : S.IsExpr target) :
    S.IsStmt (increment target op pos) := by
  have hops : ∀ op ∈ incrementOps.map (·.2), op ≠ BinaryOp.floorDivide := by decide
  exact isStmt_augAssign hpos (fun _ => hops op hop) hassignable htarget
    (isExpr_number (.inl rfl) hpos)

-- A clause that is made from the tokens.
def IsClause (S : Setting) (stmt : Stmt) : Prop :=
  S.IsStmt stmt ∧ Indented.isClause stmt = true

theorem isStmt_forClauses [Suits S] {init update : Option Stmt} {test : Option Expr}
    {body : List Stmt} (hpos : S.IsPlace pos) (hinit : ∀ stmt ∈ init, IsClause S stmt)
    (htest : ∀ e ∈ test, S.IsExpr e) (hupdate : ∀ stmt ∈ update, IsClause S stmt)
    (hbody : S.IsBody body) :
    S.IsStmt (.forClauses init test update body pos) := by
  have hclauses : ∀ stmt ∈ init.toList ++ update.toList, IsClause S stmt := by
    simpa only [List.forall_mem_append, Option.mem_toList] using ⟨hinit, hupdate⟩
  have hof : (Stmt.forClauses init test update body pos).isOf S.dialect = true := by
    rw [Suits.dialect]
    rfl
  exact .node ⟨rfl, hof, by simp [Stmt.words], hpos, by simp [Stmt.partPlaces],
    by simpa [Stmt.exprs] using htest, fun stmt hstmt => (hclauses stmt hstmt).2⟩
    (by simpa [Stmt.blocks] using hbody.ordered) (by simpa [Stmt.blocks] using hbody.stmts)
    fun stmt hstmt => (hclauses stmt hstmt).1

end Statements

-- In the braced notation all words of an expression and of a statement are said by tokens, as it has
-- no interpolated texts.

variable {word : String → Bool} {literal : TokenKind × String → Bool}

theorem not_mem_embedded [Suits S] {child : Expr} (h : S.NodeExpr e) : child ∉ e.embedded := by
  intro hchild
  have hshaped := h.shaped
  rw [Suits.dialect] at hshaped
  cases e with
  | interpolated segments pos => simp [Expr.isShaped, Expr.isOf] at hshaped
  | _ => cases hchild

theorem worded_of_isExpr [Suits S] (hword : ∀ text, S.IsWord text → word text = true)
    (hliteral : ∀ said, S.IsLiteral said → literal said = true)
    (h : S.IsExpr e) : e.Worded word literal := by
  induction h with
  | @node e h _ ih =>
      refine Expr.worded_iff.mpr ⟨⟨fun text htext => hword text (h.words text htext),
        fun said hsaid => hliteral said (h.literals said hsaid)⟩, fun child hchild => ?_⟩
      rcases Expr.outer_or_embedded_of_mem_children hchild with hchild | hchild
      · exact ih child hchild
      · exact absurd hchild (not_mem_embedded h)

theorem worded_of_isStmt [Suits S] (hword : ∀ text, S.IsWord text → word text = true)
    (hliteral : ∀ said, S.IsLiteral said → literal said = true)
    {stmt : Stmt} (h : S.IsStmt stmt) : stmt.Worded word literal := by
  induction h with
  | node h _ _ _ ih ihclauses =>
      refine Stmt.worded_iff.mpr ⟨fun text htext => hword text (h.words text htext),
        fun e he => worded_of_isExpr hword hliteral (h.exprs e he), fun child hchild => ?_⟩
      rcases Stmt.block_or_clause_of_mem_children hchild with ⟨block, hblock, hchild⟩ | hchild
      · exact ih block hblock child hchild
      · exact ihclauses child hchild

end Diglot.Braced
