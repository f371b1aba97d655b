import Diglot.Proofs.Statements
import Diglot.Proofs.Subexpressions

namespace Diglot

namespace Segment

variable {ε : Type}

def isText : Segment ε → Bool
  | text _ => true
  | expr _ => false

-- Whether no text among some segments is empty and no two texts stand side by side.
def areJoined : List (Segment ε) → Bool
  | [] => true
  | text value :: rest => value != "" && !rest.head?.any isText && areJoined rest
  | expr _ :: rest => areJoined rest

end Segment

namespace Expr

-- Whether a node has the parts that its kind needs.
def isFormed : Expr → Bool
  | compare _ comparisons _ => !comparisons.isEmpty
  | interpolated segments _ => Segment.areJoined segments
  | _ => true

-- Whether a node is one that a notation has. A single `in` or `not in` is a membership test in the
-- indented notation, which the braced one does not have, and there comparisons are never chained.
def isOf : Dialect → Expr → Bool
  | .pythonScript, construct .. | .pythonScript, this _ | .pythonScript, super _
  | .pythonScript, template .. => false
  | .pythonScript, compare _ [⟨op, _⟩] _ => op.isOrder
  | .pythonScript, _ => true
  | .javaScript, membership .. | .javaScript, slice .. | .javaScript, interpolated ..
  | .javaScript, binary .floorDivide .. => false
  | .javaScript, compare _ [⟨op, _⟩] _ => op.isOrder
  | .javaScript, compare .. => false
  | .javaScript, _ => true

-- Whether a node is formed and one of a notation.
def isShaped (dialect : Dialect) (e : Expr) : Bool := e.isFormed && e.isOf dialect

end Expr

-- The expressions that a loop runs over.
def Iteration.exprs : Iteration → List Expr
  | range start stop step => start.toList ++ stop :: step.toList
  | each iterable => [iterable]

-- Whether a range that has a step has a start.
def Iteration.isFormed : Iteration → Bool
  | range start _ step => step.isNone || start.isSome
  | each _ => true

-- Whether a parameter that has a default is positional.
def Parameter.isFormed (param : Parameter) : Bool :=
  param.kind == .positional || param.default.isNone

namespace Stmt

-- The expressions that stand directly in a statement.
def exprs : Stmt → List Expr
  | functionDef _ params _ _ => params.filterMap (·.default)
  | ifElse condition _ elifs _ _ => condition :: elifs.map (·.condition)
  | forIn _ iteration _ _ => iteration.exprs
  | forClauses _ test _ _ _ => test.toList
  | whileDo condition _ _ => [condition]
  | returns value _ => value.toList
  | assign targets value _ _ => targets ++ value.toList
  | augAssign target _ value _ => [target, value]
  | print args _ => args
  | expr value _ => [value]
  | _ => []

-- Whether a statement has the parts that its kind needs.
def isFormed : Stmt → Bool
  | functionDef _ params _ _ => params.all (·.isFormed)
  | forIn _ iteration _ _ => iteration.isFormed
  | tryCatch _ handler cleanup _ => handler.isSome || cleanup.isSome
  | assign targets _ _ _ => !targets.isEmpty && targets.all (·.isAssignable)
  | augAssign target _ _ _ => target.isAssignable
  | _ => true

-- Whether a statement is one that a notation has.
def isOf : Dialect → Stmt → Bool
  | .pythonScript, forClauses .. => false
  | .pythonScript, assign _ value declaration _ => value.isSome && declaration.isNone
  | .pythonScript, _ => true
  | .javaScript, pass _ | .javaScript, augAssign _ .floorDivide .. => false
  | .javaScript, functionDef _ params _ _ => params.all (·.kind != .keywordCollector)
  | .javaScript, _ => true

-- Whether a statement is formed and one of a notation, and so are all expressions in it.
def isShaped (dialect : Dialect) (stmt : Stmt) : Bool :=
  stmt.isFormed && stmt.isOf dialect && stmt.exprs.all (·.all (Expr.isShaped dialect))

end Stmt

section Trees

-- The expressions of an entry of a dictionary.
def DictEntry.exprs (entry : DictEntry Expr) : List Expr :=
  match entry.key with
  | .computed key => [key, entry.value]
  | _ => [entry.value]

def Segment.expr? : Segment Expr → Option Expr
  | text _ => none
  | expr value => some value

theorem Segment.exprs_consChar (c : Char) (segments : List (Segment Expr)) :
    (consChar c segments).filterMap (·.expr?) = segments.filterMap (·.expr?) := by
  match segments with
  | [] => rfl
  | .expr value :: rest => rfl
  | .text value :: rest => rfl

namespace Expr

-- The expressions that stand directly in an expression.
def children : Expr → List Expr
  | binary _ left right _ | logical _ left right _ | membership left right _ _
  | index left right _ => [left, right]
  | unary _ operand _ | member operand _ _ => [operand]
  | compare left comparisons _ => left :: comparisons.map (·.right)
  | conditional test consequent alternate _ => [test, consequent, alternate]
  | slice object start stop step _ => object :: (start.toList ++ stop.toList ++ step.toList)
  | call callee args _ | construct callee args _ => callee :: args
  | list elements _ => elements
  | dict entries _ => entries.flatMap (·.exprs)
  | interpolated segments _ => segments.filterMap (·.expr?)
  | _ => []

variable {p : Expr → Bool} {links : List (Comparison Expr)} {entries : List (DictEntry Expr)}
  {segments : List (Segment Expr)} {e : Expr}

theorem listAll_iff {exprs : List Expr} :
    listAll p exprs = true ↔ ∀ e ∈ exprs, e.all p = true := by
  induction exprs with
  | nil => simp [listAll]
  | cons first rest ih => simp [listAll, ih]

theorem optionAll_iff {found : Option Expr} :
    optionAll p found = true ↔ ∀ e ∈ found.toList, e.all p = true := by
  cases found with
  | none => simp [optionAll]
  | some e => simp [optionAll]

theorem linksAll_iff : linksAll p links = true ↔ ∀ e ∈ links.map (·.right), e.all p = true := by
  induction links with
  | nil => simp [linksAll]
  | cons first rest ih =>
      obtain ⟨op, right⟩ := first
      rw [linksAll, Bool.and_eq_true, ih, List.map_cons, List.forall_mem_cons]

theorem entriesAll_iff :
    entriesAll p entries = true ↔ ∀ e ∈ entries.flatMap (·.exprs), e.all p = true := by
  induction entries with
  | nil => simp [entriesAll]
  | cons first rest ih =>
      obtain ⟨key, value⟩ := first
      rw [List.flatMap_cons, List.forall_mem_append, ← ih]
      cases key <;> simp [entriesAll, DictEntry.exprs, and_assoc]

theorem segmentsAll_iff :
    segmentsAll p segments = true ↔ ∀ e ∈ segments.filterMap (·.expr?), e.all p = true := by
  induction segments with
  | nil => simp [segmentsAll]
  | cons first rest ih =>
      cases first with
      | text value => simpa [segmentsAll, Segment.expr?] using ih
      | expr value => simp [segmentsAll, Segment.expr?, ih]

-- An expression passes a test throughout if it does and the expressions in it do throughout.
theorem all_iff : e.all p = true ↔ p e = true ∧ ∀ child ∈ e.children, child.all p = true := by
  cases e with
  | compare left comparisons pos =>
      simp only [all, children, Bool.and_eq_true, linksAll_iff, List.forall_mem_cons, and_assoc]
  | slice object start stop step pos =>
      simp only [all, children, Bool.and_eq_true, optionAll_iff, List.forall_mem_cons,
        List.forall_mem_append, and_assoc]
  | dict entries pos => simp only [all, children, Bool.and_eq_true, entriesAll_iff]
  | interpolated segments pos => simp only [all, children, Bool.and_eq_true, segmentsAll_iff]
  | _ => simp [all, children, listAll_iff, and_assoc]

theorem sizeOf_lt_of_mem_links (h : e ∈ links.map (·.right)) : sizeOf e < sizeOf links := by
  obtain ⟨⟨op, right⟩, hlink, rfl⟩ := List.mem_map.mp h
  have hsize := List.sizeOf_lt_of_mem hlink
  simp only [Comparison.mk.sizeOf_spec] at hsize ⊢
  omega

theorem sizeOf_lt_of_mem_entries (h : e ∈ entries.flatMap (·.exprs)) :
    sizeOf e < sizeOf entries := by
  obtain ⟨⟨key, value⟩, hentry, he⟩ := List.mem_flatMap.mp h
  have hsize := List.sizeOf_lt_of_mem hentry
  simp only [DictEntry.mk.sizeOf_spec] at hsize
  cases key with
  | literal text | number text =>
      obtain rfl : e = value := List.mem_singleton.mp he
      omega
  | computed key =>
      simp only [DictKey.computed.sizeOf_spec] at hsize
      simp only [DictEntry.exprs, List.mem_cons, List.not_mem_nil, or_false] at he
      rcases he with rfl | rfl <;> omega

theorem sizeOf_lt_of_mem_segments (h : e ∈ segments.filterMap (·.expr?)) :
    sizeOf e < sizeOf segments := by
  obtain ⟨segment, hsegment, he⟩ := List.mem_filterMap.mp h
  have hsize := List.sizeOf_lt_of_mem hsegment
  cases segment with
  | text value => cases he
  | expr value =>
      cases he
      simp only [Segment.expr.sizeOf_spec] at hsize
      omega

theorem sizeOf_lt_of_mem_children {child : Expr} (h : child ∈ e.children) :
    sizeOf child < sizeOf e := by
  cases e with
  | binary op left right pos | logical op left right pos | membership left right op pos
  | index left right pos =>
      simp only [children, List.mem_cons, List.not_mem_nil, or_false] at h
      rcases h with rfl | rfl <;> simp <;> omega
  | unary op operand pos | member operand name pos =>
      rw [List.mem_singleton.mp h]
      simp
      omega
  | compare left comparisons pos =>
      simp only [compare.sizeOf_spec]
      rcases List.mem_cons.mp h with rfl | h
      · omega
      · have := sizeOf_lt_of_mem_links h
        omega
  | conditional test consequent alternate pos =>
      simp only [children, List.mem_cons, List.not_mem_nil, or_false] at h
      rcases h with rfl | rfl | rfl <;> simp <;> omega
  | slice object start stop step pos =>
      simp only [children, List.mem_cons, List.mem_append, Option.mem_toList] at h
      simp only [slice.sizeOf_spec]
      rcases h with rfl | (rfl | rfl) | rfl
      · omega
      all_goals
        simp only [Option.some.sizeOf_spec]
        omega
  | call callee args pos | construct callee args pos =>
      simp only [call.sizeOf_spec, construct.sizeOf_spec]
      rcases List.mem_cons.mp h with rfl | h
      · omega
      · have := List.sizeOf_lt_of_mem h
        omega
  | list elements pos =>
      have helements : sizeOf child < sizeOf elements := List.sizeOf_lt_of_mem h
      simp only [list.sizeOf_spec]
      omega
  | dict entries pos =>
      have := sizeOf_lt_of_mem_entries h
      simp only [dict.sizeOf_spec]
      omega
  | interpolated segments pos =>
      have := sizeOf_lt_of_mem_segments h
      simp only [interpolated.sizeOf_spec]
      omega
  | _ => cases h

-- Induction over expressions by the expressions in them.
theorem children_induct {P : Expr → Prop}
    (step : ∀ e, (∀ child ∈ e.children, P child) → P e) (e : Expr) : P e :=
  step e fun child hchild =>
    have := sizeOf_lt_of_mem_children hchild
    children_induct step child
termination_by sizeOf e

-- What follows from two tests at each node follows from them throughout.
theorem all_imp₂ {p q r : Expr → Bool} (h : ∀ e, p e = true → q e = true → r e = true)
    (hp : e.all p = true) (hq : e.all q = true) : e.all r = true := by
  induction e using children_induct with
  | step e ih =>
      rw [all_iff] at hp hq ⊢
      exact ⟨h e hp.1 hq.1, fun child hchild =>
        ih child hchild (hp.2 child hchild) (hq.2 child hchild)⟩

theorem all_imp {p q : Expr → Bool} (h : ∀ e, p e = true → q e = true) (e : Expr)
    (hp : e.all p = true) : e.all q = true := all_imp₂ (fun e hp _ => h e hp) hp hp

theorem all_of_forall {p : Expr → Bool} (h : ∀ e, p e = true) (e : Expr) : e.all p = true := by
  induction e using children_induct with
  | step e ih => exact all_iff.mpr ⟨h e, ih⟩

section Induction

variable {named : String → Bool} {P : (e : Expr) → e.all (isOperator named) = true → Prop}
  (binary : ∀ op left right pos hleft hright, P left hleft → P right hright → ∀ h,
    P (binary op left right pos) h)
  (unary : ∀ op operand pos hoperand, P operand hoperand → ∀ h, P (unary op operand pos) h)
  (logical : ∀ op left right pos hleft hright, P left hleft → P right hright → ∀ h,
    P (logical op left right pos) h)
  (compare : ∀ left comparisons pos hleft, P left hleft → comparisons ≠ [] →
    (∀ link ∈ comparisons, link.op.isOrder = true ∧ ∃ hright, P link.right hright) → ∀ h,
      P (compare left comparisons pos) h)
  (conditional : ∀ test consequent alternate pos htest hconsequent halternate, P test htest →
    P consequent hconsequent → P alternate halternate → ∀ h,
      P (conditional test consequent alternate pos) h)
  (number : ∀ literal pos, Number.isLiteral literal.toList = true → ∀ h, P (number literal pos) h)
  (boolean : ∀ value pos h, P (boolean value pos) h) (null : ∀ pos h, P (null pos) h)
  (var : ∀ name pos, named name = true → ∀ h, P (var name pos) h)

include binary unary logical compare conditional number boolean null var

-- Induction over the expressions that are made of operators.
theorem operator_induct (e : Expr) (h : e.all (isOperator named) = true) : P e h := by
  induction e using children_induct with
  | step e ih =>
      obtain ⟨hself, hchildren⟩ := all_iff.mp h
      replace ih := fun child hchild => ih child hchild (hchildren child hchild)
      cases e with
      | binary => exact binary _ _ _ _ _ _ (ih _ (.head _)) (ih _ (.tail _ (.head _))) h
      | unary => exact unary _ _ _ _ (ih _ (.head _)) h
      | logical => exact logical _ _ _ _ _ _ (ih _ (.head _)) (ih _ (.tail _ (.head _))) h
      | compare left comparisons pos =>
          simp only [isOperator, Bool.and_eq_true, Bool.not_eq_true', List.isEmpty_eq_false_iff,
            List.all_eq_true] at hself
          exact compare left comparisons pos _ (ih left (.head _)) hself.1 (fun link hlink =>
            ⟨hself.2 link hlink, _, ih link.right (.tail _ (List.mem_map_of_mem hlink))⟩) h
      | conditional =>
          exact conditional _ _ _ _ _ _ _ (ih _ (.head _)) (ih _ (.tail _ (.head _)))
            (ih _ (.tail _ (.tail _ (.head _)))) h
      | number literal pos => exact number literal pos hself h
      | boolean value pos => exact boolean value pos h
      | null pos => exact null pos h
      | var name pos => exact var name pos hself h
      | _ => cases hself

end Induction

end Expr

variable {dialect : Dialect}

-- An expression, and a statement, that is shaped in all its parts.

def Expr.Shaped (dialect : Dialect) (e : Expr) : Prop := e.all (isShaped dialect) = true

def Stmt.Shaped (dialect : Dialect) (stmt : Stmt) : Prop := stmt.all (isShaped dialect) = true

theorem Expr.shaped_iff {e : Expr} :
    e.Shaped dialect ↔ e.isShaped dialect = true ∧ ∀ child ∈ e.children, child.Shaped dialect :=
  all_iff

-- A statement is shaped in all its parts if it has the right form, and so are the expressions and
-- the statements that stand directly in it.
theorem Stmt.shaped_iff {stmt : Stmt} :
    stmt.Shaped dialect ↔ (stmt.isFormed = true ∧ stmt.isOf dialect = true) ∧
      (∀ e ∈ stmt.exprs, e.Shaped dialect) ∧ ∀ child ∈ stmt.children, child.Shaped dialect := by
  rw [Stmt.Shaped, all_iff, isShaped]
  simp only [Bool.and_eq_true, List.all_eq_true, and_assoc]
  rfl

end Trees

section Words

-- A key of a dictionary that is written as a number.
def DictKey.number? {ε : Type} : DictKey ε → Option String
  | number text => some text
  | _ => none

-- The names that stand directly in an expression.
def Expr.words : Expr → List String
  | member _ name _ | var name _ => [name]
  | _ => []

-- The numbers and the template that stand directly in an expression.
def Expr.literals : Expr → List (TokenKind × String)
  | number literal _ => [(.number, literal)]
  | dict entries _ => (entries.filterMap (·.key.number?)).map (.number, ·)
  | template raw _ => [(.template, raw)]
  | _ => []

def ImportedName.words (imported : ImportedName) : List String :=
  imported.name :: imported.otherName.toList

def ImportKind.words : ImportKind → List String
  | whole otherName => otherName.toList
  | names imported => imported.flatMap (·.words)

-- The names that stand directly in a statement.
def Stmt.words : Stmt → List String
  | imports _ kind _ => kind.words
  | classDef name base _ _ => name :: base.toList
  | functionDef name params _ _ => name :: params.map (·.name)
  | forIn target _ _ _ => [target]
  | tryCatch _ handler _ _ => (handler.bind (·.name)).toList
  | _ => []

variable {word : String → Bool} {literal : TokenKind × String → Bool}

-- Whether all names and literals that stand directly in a node pass a test.

def Expr.isWorded (word : String → Bool) (literal : TokenKind × String → Bool) (e : Expr) : Bool :=
  e.words.all word && e.literals.all literal

def Stmt.isWorded (word : String → Bool) (literal : TokenKind × String → Bool) (stmt : Stmt) : Bool :=
  stmt.words.all word && stmt.exprs.all (·.all (Expr.isWorded word literal))

-- An expression, and a statement, all of whose names and literals pass a test.

def Expr.Worded (word : String → Bool) (literal : TokenKind × String → Bool) (e : Expr) : Prop :=
  e.all (isWorded word literal) = true

def Stmt.Worded (word : String → Bool) (literal : TokenKind × String → Bool) (stmt : Stmt) : Prop :=
  stmt.all (isWorded word literal) = true

-- An expression without templates in it.
abbrev Expr.Untemplated (e : Expr) : Prop := e.Worded (fun _ => true) (·.1 != .template)

theorem Expr.worded_iff {e : Expr} :
    e.Worded word literal ↔
      ((∀ text ∈ e.words, word text = true) ∧ ∀ said ∈ e.literals, literal said = true) ∧
        ∀ child ∈ e.children, child.Worded word literal := by
  rw [Worded, all_iff, isWorded, Bool.and_eq_true, List.all_eq_true, List.all_eq_true]
  rfl

theorem Stmt.worded_iff {stmt : Stmt} :
    stmt.Worded word literal ↔ (∀ text ∈ stmt.words, word text = true) ∧
      (∀ e ∈ stmt.exprs, e.Worded word literal) ∧
        ∀ child ∈ stmt.children, child.Worded word literal := by
  rw [Worded, all_iff, isWorded]
  simp only [Bool.and_eq_true, List.all_eq_true, and_assoc]
  rfl

end Words

end Diglot
