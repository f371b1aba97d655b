import Diglot.Proofs.Braced.Forms
import Diglot.Proofs.Statements

namespace Diglot.Braced

open Diglot.Parser TokenStream
open Token (op kw word)

section Expressions

variable {e : Expr}

-- Whether an expression is made of operators.
def isFormula (e : Expr) : Bool := e.all (Expr.isOperator isName)

-- Tokens that do not start with a brace.
abbrev Unbraced : List Token → Prop := Written.Spares (·.isOperator "\x7b")

theorem unbraced_group (w : Written) : Unbraced w.group.tokens := ⟨op "(", _, rfl, rfl⟩

theorem unbraced_foldl {first : Written} (h : Unbraced first.tokens) (pairs : List Written) :
    Unbraced (pairs.foldl (fun left right => logical .and left right.group) first).tokens := by
  induction pairs generalizing first with
  | nil => exact h
  | cons pair pairs ih => exact ih (h.append _)

theorem unbraced_conjoined {pair : Written} (h : Unbraced pair.tokens) (pairs : List Written) :
    Unbraced (conjoined (pair :: pairs)).tokens := by
  cases pairs with
  | nil => exact h
  | cons next pairs => exact unbraced_foldl (unbraced_group pair) (next :: pairs)

theorem unbraced_comparing {left : Written} (h : Unbraced left.tokens) {op : CompareOp}
    (hop : op.isOrder = true) (right : Written) : Unbraced (comparing op left right).tokens := by
  cases op with
  | isIn | notIn => simp [CompareOp.isOrder] at hop
  | _ => exact h.append _

-- An expression that is made of operators does not start with a brace.
theorem unbraced_written {named : String → Bool} (h : e.all (Expr.isOperator named) = true) :
    Unbraced (written e).tokens := by
  induction e, h using Expr.operator_induct with
  | binary op left right pos _ _ _ _ =>
      cases op with
      | floorDivide => exact ⟨word "Math", _, rfl, rfl⟩
      | _ => exact unbraced_group _
  | unary op operand pos _ _ => exact ⟨_, _, rfl, by cases op <;> rfl⟩
  | logical op left right pos _ _ hleft _ => exact (hleft.enclose rfl _ _ _).append _
  | compare left comparisons pos _ hleft hne hlinks =>
      cases comparisons with
      | nil => contradiction
      | cons link rest =>
          obtain ⟨op, right⟩ := link
          have hop := (hlinks ⟨op, right⟩ (by simp)).1
          exact unbraced_conjoined (unbraced_comparing (hleft.enclose rfl _ _ _) hop _) _
  | conditional test consequent alternate pos _ _ _ htest _ _ =>
      exact (htest.enclose rfl _ _ _).append _
  | number literal pos => exact ⟨_, _, rfl, rfl⟩
  | boolean value pos => exact ⟨_, _, rfl, by cases value <;> rfl⟩
  | null pos => exact ⟨_, _, rfl, rfl⟩
  | var name pos => exact ⟨_, _, rfl, rfl⟩

variable {e : Expr}

theorem sound_written (h : isFormula e = true) : Sound (written e) :=
  (fits_written e (Expr.all_imp isSpelled_of_isOperator e h)).sound

theorem simple_written (h : isFormula e = true) : Simple (written e) := by
  refine ⟨sound_written h, ?_⟩
  obtain ⟨first, more, htokens, hfirst⟩ := unbraced_written h
  rw [htokens]
  exact hfirst

theorem recognizePrint_foldl (exprs : List Expr) {first : Expr} {pos place : Pos}
    (h : recognizePrint (.expr first pos) = .expr first pos) :
    recognizePrint
        (.expr (exprs.foldl (fun left right => .logical .and left right place) first) pos) =
      .expr (exprs.foldl (fun left right => .logical .and left right place) first) pos := by
  induction exprs generalizing first with
  | nil => exact h
  | cons next rest ih => exact ih rfl

-- The only call that an expression of operators is lowered to does not print.
theorem recognizePrint_lowered (h : isFormula e = true) (pos : Pos) :
    recognizePrint (.expr (lowered e) pos) = .expr (lowered e) pos := by
  cases e with
  | binary op left right place => cases op <;> rfl
  | compare left comparisons place =>
      cases comparisons with
      | nil => rfl
      | cons link rest => exact recognizePrint_foldl _ rfl
  | call callee args place => simp [isFormula, Expr.all, Expr.isOperator] at h
  | _ => rfl

end Expressions

section Lowering

-- A loop without what the braced notation does not say: a step of one, and a start of zero where
-- there is no step. Where there is a step, the start is said.
def loweredIteration : Iteration → Iteration
  | .range start stop step =>
      let step := step.filter (!·.isNumber "1")
      let start := start.getD (.number "0" .start)
      .range (if start.isNumber "0" && step.isNone then none else some start) stop step
  | .each iterable => .each (lowered iterable)

def loweredParam (param : Parameter) : Parameter :=
  { param with default := param.default.map lowered }

mutual

-- A statement without what the braced notation cannot say: its expressions are lowered, its
-- handlers have names and its blocks have no `pass`.
def loweredStmt : Stmt → Stmt
  | .functionDef name params body pos =>
      .functionDef name (params.map loweredParam) (loweredStmts body) pos
  | .ifElse condition body elifs orElse pos =>
      .ifElse (lowered condition) (loweredStmts body) (loweredElifs elifs) (loweredBody orElse) pos
  | .forIn target iteration body pos =>
      .forIn target (loweredIteration iteration) (loweredStmts body) pos
  | .whileDo condition body pos => .whileDo (lowered condition) (loweredStmts body) pos
  | .tryCatch body handler cleanup pos =>
      .tryCatch (loweredStmts body) (loweredHandler handler) (loweredBody cleanup) pos
  | .returns value pos => .returns (value.map lowered) pos
  | .augAssign target op value pos => .augAssign target op (lowered value) pos
  | .print args pos => .print (args.map lowered) pos
  | .expr value pos => .expr (lowered value) pos
  | stmt => stmt

def loweredStmts : List Stmt → List Stmt
  | [] => []
  | .pass _ :: rest => loweredStmts rest
  | first :: rest => loweredStmt first :: loweredStmts rest

def loweredBody : Option (List Stmt) → Option (List Stmt)
  | none => none
  | some body => some (loweredStmts body)

def loweredElifs : List (ElifClause Stmt) → List (ElifClause Stmt)
  | [] => []
  | ⟨condition, body, pos⟩ :: rest =>
      ⟨lowered condition, loweredStmts body, pos⟩ :: loweredElifs rest

def loweredHandler : Option (Handler Stmt) → Option (Handler Stmt)
  | none => none
  | some ⟨name, body, pos⟩ => some ⟨some (name.getD "e"), loweredStmts body, pos⟩

end

def loweredModule (module : Module) : Module := ⟨loweredStmts module.body, module.pos⟩

theorem loweredStmts_cons (first : Stmt) (rest : List Stmt) :
    loweredStmts (first :: rest) = loweredStmts [first] ++ loweredStmts rest := by
  cases first <;> simp [loweredStmts, loweredStmt]

end Lowering

section Loops

-- Whether an expression is a name or a number.
def isBound : Expr → Bool
  | .number literal _ => Number.isLiteral literal.toList
  | .var name _ => isName name
  | _ => false

-- Whether an expression says in which direction a loop goes: a number, or a bound with a minus.
def isStep : Expr → Bool
  | .number literal _ => Number.isLiteral literal.toList
  | .unary .negate amount _ => isBound amount
  | _ => false

-- Whether a loop runs over a formula, or over a range between names or numbers.
def isPlainIteration : Iteration → Bool
  | .range start stop step => start.all isBound && isBound stop && step.all isStep
  | .each iterable => isFormula iterable

variable {target symbol : String} {e start stop amount : Expr} {op : CompareOp} {change : BinaryOp}
  {step : Option Expr}

-- A bound stands alone, and is read back as it is.
theorem bound_written (h : isBound e = true) :
    Sound (written e) ∧ (written e).rank = 14 ∧ (written e).value = e.placeless := by
  cases e with
  | number literal pos => exact ⟨sound_number h, rfl, rfl⟩
  | var name pos => exact ⟨sound_name h, rfl, rfl⟩
  | _ => simp [isBound] at h

theorem enclose_bound (h : isBound e = true) {needed : Nat} (hneeded : needed ≤ Level.atom) :
    enclose needed e (written e) = written e := by
  have hlevel : precedence e = Level.atom := by
    cases e with
    | number literal pos => rfl
    | var name pos => rfl
    | _ => simp [isBound] at h
  rw [enclose, Written.enclose, hlevel, if_neg (Nat.not_lt.mpr hneeded)]

theorem placeless_bound (h : isBound e = true) : e.placeless.placeless = e.placeless := by
  cases e with
  | number literal pos => rfl
  | var name pos => rfl
  | _ => simp [isBound] at h

theorem countingLoop?_run (target : String) (start stop amount : Expr)
    (h : step? op change amount = some step) :
    countingLoop? (some (.assign [.var target .start] (some start) (some .letWord) .start))
        (some (.compare (.var target .start) [⟨op, stop⟩] .start))
        (some (.augAssign (.var target .start) change amount .start)) =
      some (target, .range (if start.isNumber "0" && step.isNone then none else some start) stop
        step) := by
  simp [countingLoop?, initialised?, bounded?, changed?, Expr.var?, h]

-- The head of a loop that counts from one bound to another, with its update.
def rangeText (target : String) (start stop : Expr) (op : CompareOp) (update : List Char) :
    List Char :=
  clausesText target (written start).text (compare op (.ofName target) (written stop)).text update

def augmentedText (target : String) (op : BinaryOp) (amount : Written) : List Char :=
  target.toList ++ ' ' :: ((augmentedSymbol op).toList ++ ' ' :: amount.text)

theorem head_range {text : List Char} {tokens : List Token} (htarget : isName target = true)
    (hstart : isBound start = true) (hstop : isBound stop = true) (hop : op ∈ [.less, .greater])
    (hupdate : Inline text tokens (.augAssign (.var target .start) change amount .start))
    (hstep : step? op change amount = some step) :
    ∃ tokens, Head (rangeText target start stop op text) tokens
      (.forIn target (.range (if start.isNumber "0" && step.isNone then none else some start.placeless)
        stop.placeless step) · .start) := by
  obtain ⟨hfirst, -, hfirstvalue⟩ := bound_written hstart
  obtain ⟨hlast, hrank, hlastvalue⟩ := bound_written hstop
  have htest : Sound (compare op (.ofName target) (written stop)) := by
    have hnot : op ∉ [.isIn, .notIn] := by
      rcases mem_pair.mp hop with rfl | rfl <;> decide
    have hcompare : compareRank op < 14 := by cases op <;> decide
    exact Sound.compare hnot (sound_name htarget) hlast (Nat.le_of_lt hcompare) (by rwa [hrank])
  have hcount := countingLoop?_run target start.placeless stop.placeless amount hstep
  have hnumber : start.placeless.isNumber "0" = start.isNumber "0" := isNumber_placeless start "0"
  rw [hnumber, ← hfirstvalue, ← hlastvalue] at hcount
  rw [← hfirstvalue, ← hlastvalue]
  have hhead := head_clauses htarget hfirst htest hupdate
  have htested : (compare op (.ofName target) (written stop)).value =
      .compare (.var target .start) [⟨op, (written stop).value⟩] .start := rfl
  rw [htested, clausesLoop_of_counts hcount] at hhead
  exact ⟨_, hhead⟩

theorem inline_bound (htarget : isName target = true) (h : isBound amount = true) {op : BinaryOp}
    (hop : op ≠ .floorDivide) :
    ∃ tokens, Inline (augmentedText target op (written amount)) tokens
      (.augAssign (.var target .start) op amount.placeless .start) := by
  obtain ⟨hamount, -, hvalue⟩ := bound_written h
  have hsimple : Simple (.ofName target) := ⟨sound_name htarget, rfl⟩
  rw [← hvalue]
  exact ⟨_, inline_augmented hsimple rfl hamount hop⟩

-- How a range is written, by its step.

theorem text_start (start : Option Expr) :
    (writeOr false "0" start).toList = (written (start.getD (.number "0" .start))).text := by
  cases start with
  | none => rfl
  | some start => exact (text_written start).symm

theorem text_counting (start : Option Expr) (stop : Expr) (op : CompareOp)
    (hsymbol : symbol.toList = ' ' :: ((compareSymbol op).toList ++ [' '])) (update : List Char) :
    ("let " ++ target ++ " = " ++ writeOr false "0" start ++ "; " ++ target ++ symbol ++
        writeExpr false stop ++ "; ").toList ++ update =
      rangeText target (start.getD (.number "0" .start)) stop op update := by
  have hlet : "let ".toList = "let".toList ++ [' '] := rfl
  have hequals : " = ".toList = ' ' :: ("=".toList ++ [' ']) := rfl
  have hnext : "; ".toList = [';', ' '] := rfl
  simp only [rangeText, clausesText, compare, Written.infixed, Written.ofName, Written.leaf,
    String.toList_append, text_start, text_written, hlet, hequals, hnext, hsymbol,
    List.append_assoc, List.cons_append, List.nil_append]

theorem text_range (start : Option Expr) (stop : Expr) :
    (writeHead false target (.range start stop none)).toList =
      rangeText target (start.getD (.number "0" .start)) stop .less
        (target.toList ++ "++".toList) := by
  rw [← text_counting start stop .less (show " < ".toList = _ from rfl), ← List.append_assoc,
    ← String.toList_append, ← String.toList_append]
  rfl

theorem text_changed (op : BinaryOp) {text : String}
    (hsymbol : symbol.toList = ' ' :: ((augmentedSymbol op).toList ++ [' '])) {amount : Written}
    (h : amount.text = text.toList) :
    target.toList ++ (symbol.toList ++ text.toList) = augmentedText target op amount := by
  simp only [augmentedText, hsymbol, h, List.append_assoc, List.cons_append, List.nil_append]

theorem text_rangeUp (start : Option Expr) (stop : Expr) (literal : String) (pos : Pos) :
    (writeHead false target (.range start stop (some (.number literal pos)))).toList =
      rangeText target (start.getD (.number "0" .start)) stop .less
        (augmentedText target .add (written (.number literal pos))) := by
  rw [← text_counting start stop .less (show " < ".toList = _ from rfl),
    ← text_changed .add (show " += ".toList = _ from rfl) (text_written _), ← List.append_assoc,
    ← List.append_assoc, ← String.toList_append, ← String.toList_append, ← String.toList_append]
  rfl

theorem text_rangeDown (start : Option Expr) (stop amount : Expr) (pos : Pos) :
    (writeHead false target (.range start stop (some (.unary .negate amount pos)))).toList =
      rangeText target (start.getD (.number "0" .start)) stop .greater
        (augmentedText target .subtract (enclose Level.unary amount (written amount))) := by
  rw [← text_counting start stop .greater (show " > ".toList = _ from rfl),
    ← text_changed .subtract (show " -= ".toList = _ from rfl)
      (Written.text_enclose (text_written amount)),
    ← List.append_assoc, ← List.append_assoc, ← String.toList_append, ← String.toList_append,
    ← String.toList_append]
  rfl

theorem placeless_range {said : Option Expr} (hstart : isBound start = true)
    (hstop : isBound stop = true) (hstep : placeless step = placeless said) :
    placeless (Iteration.range
        (if start.isNumber "0" && step.isNone then none else some start.placeless) stop.placeless
        step) =
      placeless (Iteration.range (if start.isNumber "0" && said.isNone then none else some start)
        stop said) := by
  have hnone : step.isNone = said.isNone := by cases step <;> cases said <;> simp_all
  have hfirst := placeless_bound hstart
  have hlast := placeless_bound hstop
  have hrange : ∀ (start : Option Expr) (stop : Expr) (step : Option Expr),
      placeless (Iteration.range start stop step) =
        .range (placeless start) (placeless stop) (placeless step) := fun _ _ _ => rfl
  rw [hrange, hrange, hstep, hnone, placeless_expr, placeless_expr, hlast]
  split
  · rfl
  · rw [placeless_some, placeless_some, placeless_expr, placeless_expr, hfirst]

theorem head_iteration {iteration : Iteration} (htarget : isName target = true)
    (h : isPlainIteration iteration = true) :
    ∃ tokens found, Head (writeHead false target iteration).toList tokens
        (.forIn target found · .start) ∧
      placeless found = placeless (loweredIteration iteration) := by
  cases iteration with
  | each iterable =>
      have htext : (writeHead false target (.each iterable)).toList = "const".toList ++ ' ' ::
          (target.toList ++ ' ' :: ("of".toList ++ ' ' :: (written iterable).text)) := by
        simp [writeHead, text_written]
      rw [htext]
      exact ⟨_, _, head_each htarget (sound_written h), congrArg Iteration.each (value_written h)⟩
  | range start stop step =>
      simp only [isPlainIteration, Bool.and_eq_true] at h
      obtain ⟨⟨hstart, hstop⟩, hstep⟩ := h
      have hfirst : isBound (start.getD (.number "0" .start)) = true := by
        cases start with
        | none => rfl
        | some start => exact hstart
      cases step with
      | none =>
          obtain ⟨tokens, hhead⟩ := head_range htarget hfirst hstop
            (show CompareOp.less ∈ [.less, .greater] by decide) (inline_increment htarget) rfl
          rw [text_range]
          exact ⟨tokens, _, hhead, placeless_range hfirst hstop rfl⟩
      | some step =>
          cases step with
          | number literal pos =>
              have hamount : isBound (.number literal pos) = true := hstep
              obtain ⟨_, hupdate⟩ := inline_bound htarget hamount (show BinaryOp.add ≠ _ by decide)
              obtain ⟨tokens, hhead⟩ := head_range htarget hfirst hstop
                (show CompareOp.less ∈ [.less, .greater] by decide) hupdate rfl
              rw [text_rangeUp]
              refine ⟨tokens, _, hhead, placeless_range hfirst hstop ?_⟩
              by_cases hone : literal = "1" <;>
                simp [Option.filter_some, Expr.isNumber, Expr.placeless, placeless_expr, hone]
          | unary sign amount pos =>
              cases sign with
              | negate =>
                  have hamount : isBound amount = true := hstep
                  obtain ⟨_, hupdate⟩ :=
                    inline_bound htarget hamount (show BinaryOp.subtract ≠ _ by decide)
                  obtain ⟨tokens, hhead⟩ := head_range htarget hfirst hstop
                    (show CompareOp.greater ∈ [.less, .greater] by decide) hupdate rfl
                  rw [text_rangeDown start stop, enclose_bound hamount (by decide)]
                  refine ⟨tokens, _, hhead, placeless_range hfirst hstop ?_⟩
                  simp [Option.filter_some, Expr.isNumber, Expr.placeless, placeless_expr,
                    placeless_bound hamount]
              | _ => simp [isStep] at hstep
          | _ => simp [isStep] at hstep

end Loops

section Params

-- Whether a parameter has a name and, if any, a formula as its default, which only a positional
-- parameter has. What collects keyword arguments has no counterpart.
def isPlainParam (param : Parameter) : Bool :=
  isName param.name &&
    match param.kind with
    | .positional => param.default.all isFormula
    | .rest => param.default.isNone
    | .keywordCollector => false

variable {param : Parameter}

theorem text_param (h : isPlainParam param = true) :
    (writeParam false param).text.toList = paramText param := by
  obtain ⟨name, kind, default, pos⟩ := param
  cases kind with
  | positional =>
      cases default with
      | none => rfl
      | some default => simp [writeParam, Phrase.plain, paramText, text_written]
  | rest => exact String.toList_append
  | keywordCollector => simp [isPlainParam] at h

theorem sound_param (h : isPlainParam param = true) : ParamSound param := by
  obtain ⟨name, kind, default, pos⟩ := param
  simp only [isPlainParam, Bool.and_eq_true] at h
  refine ⟨h.1, ?_⟩
  rintro default rfl
  cases kind with
  | positional => exact sound_written h.2
  | rest | keywordCollector => simp at h

theorem placeless_paramValue (h : isPlainParam param = true) :
    placeless (paramValue param) = placeless (loweredParam param) := by
  obtain ⟨name, kind, default, pos⟩ := param
  simp only [isPlainParam, Bool.and_eq_true] at h
  cases kind with
  | positional =>
      cases default with
      | none => rfl
      | some default =>
          have hvalue := value_written (e := default) h.2
          simp [paramValue, loweredParam, placeless_param, placeless_expr, hvalue]
  | rest =>
      obtain rfl : default = none := Option.isNone_iff_eq_none.mp h.2
      rfl
  | keywordCollector => simp at h

end Params

-- Whether a statement is a branch, a loop, a function, a `try` with a handler or a cleanup, or a
-- simple statement that introduces no name, whose own names are names and whose expressions are
-- formulas. A `//=` is written as an assignment. What stands in its blocks is not looked at.
def isStructured : Stmt → Bool
  | .functionDef name params _ _ => isName name && params.all isPlainParam
  | .ifElse condition _ elifs _ _ => isFormula condition && elifs.all (isFormula ·.condition)
  | .forIn target iteration _ _ => isName target && isPlainIteration iteration
  | .whileDo condition _ _ => isFormula condition
  | .tryCatch _ handler cleanup _ =>
      (handler.isSome || cleanup.isSome) && handler.all (·.name.all isName)
  | .returns value _ => value.all isFormula
  | .augAssign (.var name _) op value _ => isName name && op != .floorDivide && isFormula value
  | .print args _ => args.all isFormula
  | .expr value _ => isFormula value
  | .pass _ | .breaks _ | .continues _ => true
  | _ => false

section Hoisting

variable {body : List Stmt}

theorem assignedIn_eq_nil (h : ∀ stmt ∈ body, assigned stmt = []) : assignedIn body = [] := by
  induction body with
  | nil => rfl
  | cons first rest ih =>
      obtain ⟨hfirst, hrest⟩ := List.forall_mem_cons.mp h
      rw [assignedIn, hfirst, ih hrest]
      rfl

theorem assignedInOption_eq_nil {body : Option (List Stmt)}
    (h : ∀ stmt ∈ body.getD [], assigned stmt = []) : assignedInOption body = [] := by
  cases body with
  | none => rfl
  | some body => exact assignedIn_eq_nil h

theorem assignedInElifs_eq_nil {elifs : List (ElifClause Stmt)}
    (h : ∀ stmt ∈ elifs.flatMap (·.body), assigned stmt = []) : assignedInElifs elifs = [] := by
  induction elifs with
  | nil => rfl
  | cons first rest ih =>
      obtain ⟨condition, body, pos⟩ := first
      rw [List.flatMap_cons, List.forall_mem_append] at h
      rw [assignedInElifs, assignedIn_eq_nil h.1, ih h.2]
      rfl

theorem assignedInHandler_eq_nil {handler : Option (Handler Stmt)}
    (h : ∀ stmt ∈ (handler.map (·.body)).getD [], assigned stmt = []) :
    assignedInHandler handler = [] := by
  cases handler with
  | none => rfl
  | some handler =>
      obtain ⟨name, body, pos⟩ := handler
      exact assignedIn_eq_nil h

-- Structured statements assign to no name that would have to be declared.
theorem assigned_eq_nil (stmt : Stmt) (h : stmt.all isStructured = true) : assigned stmt = [] := by
  induction stmt, h using Stmt.all_induct with
  | step stmt hstmt _ hnil =>
      cases stmt with
      | ifElse condition body elifs orElse pos =>
          simp only [Stmt.children, List.forall_mem_append] at hnil
          rw [assigned, assignedIn_eq_nil hnil.1.1, assignedInElifs_eq_nil hnil.1.2,
            assignedInOption_eq_nil hnil.2]
          rfl
      | forIn target iteration body pos => exact assignedIn_eq_nil hnil
      | whileDo condition body pos => exact assignedIn_eq_nil hnil
      | tryCatch body handler cleanup pos =>
          simp only [Stmt.children, List.forall_mem_append] at hnil
          rw [assigned, assignedIn_eq_nil hnil.1.1, assignedInHandler_eq_nil hnil.1.2,
            assignedInOption_eq_nil hnil.2]
          rfl
      | assign targets value declaration pos => simp [isStructured] at hstmt
      | forClauses init test update body pos => simp [isStructured] at hstmt
      | _ => rfl

theorem declareLocals_eq_empty (h : ∀ stmt ∈ body, stmt.all isStructured = true)
    (params : List Parameter) : declareLocals body params = .empty := by
  have hnil := assignedIn_eq_nil fun stmt hstmt => assigned_eq_nil stmt (h stmt hstmt)
  rw [declareLocals, hoisted, hnil]
  rfl

end Hoisting

section Statements

variable {width : Nat} {stmt : Stmt} {cleanup : Option (List Stmt)}

-- The lines of a statement say it lowered, or nothing of a `pass`.
def SaysLowered (width : Nat) (stmt : Stmt) : Prop :=
  ∃ values, Says width (writeStmt .toplevel stmt) values ∧
    placeless values = placeless (loweredStmts [stmt])

theorem SaysLowered.of_value {value : Stmt} (h : Says width (writeStmt .toplevel stmt) [value])
    (hstmt : loweredStmts [stmt] = [loweredStmt stmt])
    (hvalue : value.placeless = (loweredStmt stmt).placeless) : SaysLowered width stmt := by
  refine ⟨[value], h, ?_⟩
  rw [hstmt, placeless_cons, placeless_cons, placeless_stmt, placeless_stmt, hvalue]

theorem says_stmts {body : List Stmt} (h : ∀ stmt ∈ body, SaysLowered width stmt) :
    ∃ values, Says width (writeStmts .toplevel body) values ∧
      stmtsPlaceless values = stmtsPlaceless (loweredStmts body) := by
  induction body with
  | nil => exact ⟨[], says_nil, rfl⟩
  | cons first rest ih =>
      obtain ⟨⟨value, hfirst, hvalue⟩, hrest⟩ := List.forall_mem_cons.mp h
      obtain ⟨values, hsays, hvalues⟩ := ih hrest
      refine ⟨value ++ values, hfirst.append hsays, ?_⟩
      rw [stmtsPlaceless_eq, stmtsPlaceless_eq] at hvalues ⊢
      rw [loweredStmts_cons, placeless_append, placeless_append, hvalue, hvalues]

theorem text_asked (keyword opening : String)
    (hopening : opening.toList = keyword.toList ++ [' ', '(']) (e : Expr) :
    (opening ++ writeExpr false e ++ ") \x7b").toList =
      keyword.toList ++ ' ' :: '(' :: ((written e).text ++ [')']) ++ [' ', '{'] := by
  have hclosing : ") \x7b".toList = [')', ' ', '{'] := rfl
  simp only [String.toList_append, hopening, hclosing, text_written, List.append_assoc,
    List.cons_append, List.nil_append]

theorem text_elseIf (e : Expr) :
    ("\x7d else if (" ++ writeExpr false e ++ ") \x7b").toList =
      '}' :: ' ' :: ("else".toList ++ ' ' :: ("if".toList ++ ' ' :: '(' ::
        ((written e).text ++ [')']))) ++ [' ', '{'] := by
  simp [text_written]

theorem text_catch (name : String) :
    ("\x7d catch (" ++ name ++ ") \x7b").toList =
      '}' :: ' ' :: ("catch".toList ++ ' ' :: '(' :: (name.toList ++ [')'])) ++ [' ', '{'] := by
  simp

theorem text_for (head : String) :
    ("for (" ++ head ++ ") \x7b").toList =
      "for".toList ++ ' ' :: '(' :: (head.toList ++ [')']) ++ [' ', '{'] := by
  simp

theorem text_function (name : String) {params : List Parameter}
    (hparams : ∀ param ∈ params, isPlainParam param = true) :
    (writeParams false ("function " ++ name ++ "(") params ") \x7b").text.toList =
      "function".toList ++ ' ' :: (name.toList ++ '(' ::
        (commaTexts (params.map paramText) ++ [')'])) ++ [' ', '{'] := by
  have htexts : (params.map (writeParam false)).map (·.text.toList) = params.map paramText := by
    rw [List.map_map]
    exact List.map_congr_left fun param hparam => text_param (hparams param hparam)
  rw [writeParams, Phrase.toList_listed, htexts]
  simp

theorem says_branches {elifs : List (ElifClause Stmt)} {orElse : Option (List Stmt)}
    (helifs : elifs.all (isFormula ·.condition) = true)
    (h : ∀ stmt ∈ elifs.flatMap (·.body), SaysLowered width stmt)
    (hlast : ∀ stmt ∈ orElse.getD [], SaysLowered width stmt) :
    ∃ clauses otherwise, SaysFurther width branches
        (writeElifs .toplevel elifs ++
          (writeOption .toplevel "\x7d else \x7b" orElse ++ .line "\x7d"))
        (clauses, otherwise) ∧
      elifsPlaceless clauses = elifsPlaceless (loweredElifs elifs) ∧
        bodyPlaceless otherwise = bodyPlaceless (loweredBody orElse) := by
  induction elifs with
  | nil =>
      cases orElse with
      | none => exact ⟨[], none, says_noBranch, rfl, rfl⟩
      | some body =>
          have hbody : ∀ stmt ∈ body, SaysLowered width stmt := hlast
          obtain ⟨values, hsays, hvalues⟩ := says_stmts hbody
          refine ⟨[], some values, ?_, rfl, ?_⟩
          · rw [writeElifs, Fragment.empty_append]
            exact says_else hsays
          · rw [bodyPlaceless, loweredBody, bodyPlaceless, hvalues]
  | cons first rest ih =>
      obtain ⟨condition, body, pos⟩ := first
      rw [List.all_cons, Bool.and_eq_true] at helifs
      rw [List.flatMap_cons, List.forall_mem_append] at h
      obtain ⟨values, hbody, hvalues⟩ := says_stmts h.1
      obtain ⟨clauses, otherwise, hsays, hclauses, hotherwise⟩ := ih helifs.2 h.2
      refine ⟨⟨(written condition).value, values, .start⟩ :: clauses, otherwise, ?_, ?_, hotherwise⟩
      · rw [writeElifs, Fragment.append_assoc]
        exact says_elseIf (sound_written helifs.1) (text_elseIf condition) hbody hsays
      · rw [elifsPlaceless, loweredElifs, elifsPlaceless, hvalues, hclauses, value_written helifs.1]

theorem says_cleanup (h : ∀ stmt ∈ cleanup.getD [], SaysLowered width stmt) :
    ∃ found, SaysCleanup width
        (writeOption .toplevel "\x7d finally \x7b" cleanup ++ .line "\x7d") found ∧
      bodyPlaceless found = bodyPlaceless (loweredBody cleanup) ∧
        found.isNone = cleanup.isNone := by
  cases cleanup with
  | none => exact ⟨none, says_noCleanup, rfl, rfl⟩
  | some body =>
      have hbody : ∀ stmt ∈ body, SaysLowered width stmt := h
      obtain ⟨values, hsays, hvalues⟩ := says_stmts hbody
      refine ⟨some values, says_finally hsays, ?_, rfl⟩
      rw [bodyPlaceless, loweredBody, bodyPlaceless, hvalues]

theorem says_handling {handler : Option (Handler Stmt)} {closing : Fragment}
    (hname : handler.all (·.name.all isName) = true)
    (h : ∀ stmt ∈ (handler.map (·.body)).getD [], SaysLowered width stmt)
    (hclosing : SaysCleanup width closing cleanup) :
    ∃ found, SaysFurther width handlingReader (writeHandler .toplevel handler ++ closing)
        (found, cleanup) ∧
      handlerPlaceless found = handlerPlaceless (loweredHandler handler) ∧
        found.isNone = handler.isNone := by
  cases handler with
  | none =>
      refine ⟨none, ?_, rfl, rfl⟩
      rw [writeHandler, Fragment.empty_append]
      exact says_noHandler hclosing
  | some handler =>
      obtain ⟨name, body, pos⟩ := handler
      have hbody : ∀ stmt ∈ body, SaysLowered width stmt := h
      obtain ⟨values, hsays, hvalues⟩ := says_stmts hbody
      have hgiven : isName (name.getD "e") = true := by
        cases name with
        | none => decide
        | some name => exact hname
      refine ⟨some ⟨some (name.getD "e"), values, .start⟩, ?_, ?_, rfl⟩
      · rw [writeHandler]
        exact says_catch hgiven (text_catch _) hsays hclosing
      · rw [handlerPlaceless, loweredHandler, handlerPlaceless, hvalues]

-- The compound statements, each by the statements in its blocks.

section Compound

variable {condition : Expr} {body : List Stmt} {pos : Pos}

theorem saysLowered_while (hcondition : isFormula condition = true)
    (h : ∀ stmt ∈ body, SaysLowered width stmt) :
    SaysLowered width (.whileDo condition body pos) := by
  obtain ⟨values, hbody, hvalues⟩ := says_stmts h
  have hsays := says_while (sound_written hcondition) (text_asked "while" "while (" rfl condition)
    hbody
  refine .of_value hsays rfl ?_
  rw [Stmt.placeless, loweredStmt, Stmt.placeless, hvalues, value_written hcondition]

theorem saysLowered_for {target : String} {iteration : Iteration} (htarget : isName target = true)
    (hiteration : isPlainIteration iteration = true) (h : ∀ stmt ∈ body, SaysLowered width stmt) :
    SaysLowered width (.forIn target iteration body pos) := by
  obtain ⟨values, hbody, hvalues⟩ := says_stmts h
  obtain ⟨tokens, found, hhead, hfound⟩ := head_iteration htarget hiteration
  refine .of_value (says_for hhead (text_for _) hbody) rfl ?_
  rw [Stmt.placeless, loweredStmt, Stmt.placeless, hvalues, hfound]

theorem saysLowered_function {name : String} {params : List Parameter} (hname : isName name = true)
    (hparams : ∀ param ∈ params, isPlainParam param = true)
    (hlocals : declareLocals body params = .empty) (h : ∀ stmt ∈ body, SaysLowered width stmt) :
    SaysLowered width (.functionDef name params body pos) := by
  obtain ⟨values, hbody, hvalues⟩ := says_stmts h
  have hlines : writeStmt .toplevel (.functionDef name params body pos) =
      .phrase (writeParams false ("function " ++ name ++ "(") params ") \x7b") ++
        (writeStmts .toplevel body).indent ++ .line "\x7d" := by
    change .phrase (writeParams false ("function " ++ name ++ "(") params ") \x7b") ++
      (declareLocals body params ++ writeStmts .toplevel body).indent ++ .line "\x7d" = _
    rw [hlocals, Fragment.empty_append]
  have hsays := says_function hname (fun param hparam => sound_param (hparams param hparam))
    (text_function name hparams) hbody
  rw [← hlines] at hsays
  refine .of_value hsays rfl ?_
  have hvalue : placeless (params.map paramValue) = placeless (params.map loweredParam) :=
    placeless_map_congr fun param hparam => placeless_paramValue (hparams param hparam)
  rw [Stmt.placeless, loweredStmt, Stmt.placeless, hvalues, hvalue]

theorem saysLowered_if {elifs : List (ElifClause Stmt)} {orElse : Option (List Stmt)}
    (hcondition : isFormula condition = true) (helifs : elifs.all (isFormula ·.condition) = true)
    (h : ∀ stmt ∈ body, SaysLowered width stmt)
    (hmore : ∀ stmt ∈ elifs.flatMap (·.body), SaysLowered width stmt)
    (hlast : ∀ stmt ∈ orElse.getD [], SaysLowered width stmt) :
    SaysLowered width (.ifElse condition body elifs orElse pos) := by
  obtain ⟨values, hbody, hvalues⟩ := says_stmts h
  obtain ⟨clauses, otherwise, hfurther, hclauses, hotherwise⟩ := says_branches helifs hmore hlast
  have hsays := says_if (sound_written hcondition) (text_asked "if" "if (" rfl condition) hbody
    hfurther
  rw [← Fragment.append_assoc, ← Fragment.append_assoc] at hsays
  refine .of_value hsays rfl ?_
  rw [Stmt.placeless, loweredStmt, Stmt.placeless, hvalues, hclauses, hotherwise,
    value_written hcondition]

theorem saysLowered_try {handler : Option (Handler Stmt)} {cleanup : Option (List Stmt)}
    (hsome : (handler.isSome || cleanup.isSome) = true)
    (hname : handler.all (·.name.all isName) = true) (h : ∀ stmt ∈ body, SaysLowered width stmt)
    (hmore : ∀ stmt ∈ (handler.map (·.body)).getD [], SaysLowered width stmt)
    (hlast : ∀ stmt ∈ cleanup.getD [], SaysLowered width stmt) :
    SaysLowered width (.tryCatch body handler cleanup pos) := by
  obtain ⟨values, hbody, hvalues⟩ := says_stmts h
  obtain ⟨closing, hfinally, hclosing, hopen⟩ := says_cleanup hlast
  obtain ⟨found, hfurther, hfound, hnone⟩ := says_handling hname hmore hfinally
  have hneeded : (found.isNone && closing.isNone) = false := by
    rw [hnone, hopen]
    cases handler <;> cases cleanup <;> simp_all
  have hsays := says_try hbody hfurther hneeded
  rw [← Fragment.append_assoc, ← Fragment.append_assoc] at hsays
  refine .of_value hsays rfl ?_
  rw [Stmt.placeless, loweredStmt, Stmt.placeless, hvalues, hfound, hclosing]

end Compound

-- The simple statements.

section Simple

variable {pos : Pos} {op : BinaryOp} {value : Expr}

theorem text_returned (e : Expr) :
    ("return " ++ writeExpr false e ++ ";").toList =
      "return".toList ++ ' ' :: (written e).text ++ [';'] := by
  simp [text_written]

theorem text_augmented (name : String) (hop : op ≠ .floorDivide) (value : Expr) (place : Pos) :
    (writeAugAssign false (.var name place) op value).toList =
      augmentedText name op (written value) := by
  have hwrite : writeAugAssign false (.var name place) op value =
      name ++ " " ++ binarySymbol op ++ "= " ++ writeExpr false value := by
    cases op with
    | floorDivide => contradiction
    | _ => rfl
  rw [hwrite, augmentedText, augmentedSymbol]
  simp [text_written]

theorem writtenAll_eq_map (exprs : List Expr) : writtenAll exprs = exprs.map written := by
  induction exprs with
  | nil => rfl
  | cons first rest ih => rw [writtenAll, ih, List.map_cons]

theorem text_print (args : List Expr) :
    ("console.log(" ++ ", ".intercalate (writeExprs false args) ++ ")").toList =
      (ask (.ofName "console") "log" (writtenAll args)).text := by
  have hargs := text_writtenAll args
  simp [ask, Written.call, Written.member, Written.ofName, Written.leaf, commaTexts, hargs]

theorem saysLowered_return {value : Option Expr} (h : value.all isFormula = true) :
    SaysLowered width (.returns value pos) := by
  cases value with
  | none => exact .of_value says_return rfl rfl
  | some value =>
      have hvalue : isFormula value = true := h
      refine .of_value (says_returned (sound_written hvalue) (text_returned value)) rfl ?_
      simp [Stmt.placeless, loweredStmt, placeless_expr, value_written hvalue]

theorem saysLowered_augmented {name : String} {place : Pos} (hname : isName name = true)
    (hop : op ≠ .floorDivide) (hvalue : isFormula value = true) :
    SaysLowered width (.augAssign (.var name place) op value pos) := by
  have hsimple : Simple (.ofName name) := ⟨sound_name hname, rfl⟩
  have hinline := inline_augmented hsimple rfl (sound_written hvalue) hop
  have htext : (writeAugAssign false (.var name place) op value ++ ";").toList =
      augmentedText name op (written value) ++ [';'] := by
    rw [String.toList_append, text_augmented name hop]
    rfl
  refine .of_value (says_inline hinline htext) rfl ?_
  change Stmt.placeless (.augAssign (.var name .start) op (written value).value .start) = _
  rw [Stmt.placeless, loweredStmt, Stmt.placeless, value_written hvalue]
  rfl

theorem saysLowered_expr (h : isFormula value = true) : SaysLowered width (.expr value pos) := by
  have htext : (writeExpr false value ++ ";").toList = (written value).text ++ [';'] := by
    rw [String.toList_append, text_written]
    rfl
  have hvalue : placeless (Stmt.expr (written value).value .start) =
      placeless (Stmt.expr (lowered value) pos) := by
    rw [placeless_stmt, placeless_stmt, Stmt.placeless, Stmt.placeless, value_written h]
  refine .of_value (says_inline (inline_expr (simple_written h)) htext) rfl ?_
  rw [← placeless_stmt, ← recognizePrint_placeless, hvalue, recognizePrint_placeless,
    recognizePrint_lowered h]
  rfl

theorem saysLowered_print {args : List Expr} (h : ∀ arg ∈ args, isFormula arg = true) :
    SaysLowered width (.print args pos) := by
  have hargs : ∀ w ∈ args.map written, Sound w := by
    simpa using fun arg harg => sound_written (h arg harg)
  have hasked : Simple (ask (.ofName "console") "log" (args.map written)) :=
    ⟨sound_ask (sound_name (by decide)) (Nat.le_refl 14) (by decide) hargs, rfl⟩
  have htext : ("console.log(" ++ ", ".intercalate (writeExprs false args) ++ ")" ++ ";").toList =
      (ask (.ofName "console") "log" (args.map written)).text ++ [';'] := by
    rw [String.toList_append, text_print, writtenAll_eq_map]
    rfl
  have hvalues : placeless ((args.map written).map (·.value)) = placeless (args.map lowered) := by
    rw [List.map_map]
    exact placeless_map_congr fun arg harg => value_written (h arg harg)
  refine .of_value (says_inline (inline_expr hasked) htext) rfl ?_
  change Stmt.placeless (.print ((args.map written).map (·.value)) .start) = _
  rw [Stmt.placeless, loweredStmt, Stmt.placeless, hvalues]

end Simple

-- The lines of a statement say it lowered if those of the statements in it do.
theorem saysLowered_step (hstmt : isStructured stmt = true)
    (hchildren : ∀ child ∈ stmt.children, child.all isStructured = true)
    (h : ∀ child ∈ stmt.children, SaysLowered width child) : SaysLowered width stmt := by
  cases stmt with
  | functionDef name params body pos =>
      simp only [isStructured, Bool.and_eq_true, List.all_eq_true] at hstmt
      exact saysLowered_function hstmt.1 hstmt.2 (declareLocals_eq_empty hchildren params) h
  | ifElse condition body elifs orElse pos =>
      rw [isStructured, Bool.and_eq_true] at hstmt
      simp only [Stmt.children, List.forall_mem_append] at h
      exact saysLowered_if hstmt.1 hstmt.2 h.1.1 h.1.2 h.2
  | forIn target iteration body pos =>
      rw [isStructured, Bool.and_eq_true] at hstmt
      exact saysLowered_for hstmt.1 hstmt.2 h
  | whileDo condition body pos => exact saysLowered_while hstmt h
  | tryCatch body handler cleanup pos =>
      rw [isStructured, Bool.and_eq_true] at hstmt
      simp only [Stmt.children, List.forall_mem_append] at h
      exact saysLowered_try hstmt.1 hstmt.2 h.1.1 h.1.2 h.2
  | returns value pos => exact saysLowered_return hstmt
  | augAssign target op value pos =>
      cases target with
      | var name place =>
          simp only [isStructured, Bool.and_eq_true, bne_iff_ne] at hstmt
          exact saysLowered_augmented hstmt.1.1 hstmt.1.2 hstmt.2
      | _ => simp [isStructured] at hstmt
  | print args pos =>
      rw [isStructured, List.all_eq_true] at hstmt
      exact saysLowered_print hstmt
  | expr value pos => exact saysLowered_expr hstmt
  | pass pos => exact ⟨[], says_nil, rfl⟩
  | breaks pos =>
      have htext : "break;".toList = "break".toList ++ [';'] := by decide
      exact .of_value (says_word (.head _) htext) rfl rfl
  | continues pos =>
      have htext : "continue;".toList = "continue".toList ++ [';'] := by decide
      exact .of_value (says_word (.tail _ (.head _)) htext) rfl rfl
  | _ => simp [isStructured] at hstmt

theorem saysLowered (stmt : Stmt) (h : stmt.all isStructured = true) : SaysLowered width stmt := by
  induction stmt, h using Stmt.all_induct with
  | step stmt hstmt hall hchildren => exact saysLowered_step hstmt hall hchildren

end Statements

-- The text of a program of structured statements is read back, with levels of any width, as the
-- lowered program.
theorem parse_render_lowered {module : Module} (width : Nat)
    (h : ∀ stmt ∈ module.body, stmt.all isStructured = true) :
    ∃ found, Diglot.parse .javaScript ((write .javaScript module).render width) = .ok found ∧
      placeless found = placeless (loweredModule module) := by
  obtain ⟨values, hsays, hvalues⟩ := says_stmts fun stmt hstmt => saysLowered stmt (h stmt hstmt)
  have hlines : write .javaScript module = writeStmts .toplevel module.body := by
    change declareLocals module.body [] ++ writeStmts .toplevel module.body = _
    rw [declareLocals_eq_empty h, Fragment.empty_append]
  obtain ⟨⟨body, pos⟩, hparse, hfound⟩ := parse_of_says hsays
  refine ⟨⟨body, pos⟩, ?_, ?_⟩
  · rw [hlines, hparse]
  · rw [stmtsPlaceless_eq, stmtsPlaceless_eq] at hvalues
    rw [loweredModule, placeless_module, placeless_module, hfound, hvalues]

-- Loops of each kind, two of them inside an `else` that holds nothing but a branch, a nameless
-- handler, and expressions with no counterpart; some blocks hold only a `pass` or nothing.
def nestedClauses : Module :=
  let x : Expr := .var "x" .start
  let one : Expr := .number "1" .start
  let test : Expr := .compare one [⟨.less, x⟩, ⟨.lessEqual, .var "y" .start⟩] .start
  ⟨[.functionDef "f" [⟨"x", .positional, none, .start⟩, ⟨"y", .positional, some one, .start⟩,
      ⟨"more", .rest, none, .start⟩]
      [.ifElse test [.pass .start] [⟨x, [.returns none .start], .start⟩]
        (some [.ifElse x
          [.forIn "i" (.range none x none)
            [.whileDo (.boolean true .start) [.breaks .start] .start, .continues .start] .start]
          [] (some [.forIn "i" (.range (some x) one (some (.unary .negate one .start)))
            [.augAssign x .add one .start] .start]) .start]) .start,
       .tryCatch [.print [x, .binary .floorDivide x one .start] .start]
        (some ⟨none, [.forIn "k" (.each x) [] .start], .start⟩) (some [.expr test .start]) .start,
       .returns (some x) .start] .start,
    .pass .start], .start⟩

theorem parse_render_nestedClauses :
    (∀ stmt ∈ nestedClauses.body, stmt.all isStructured = true) ∧
      ∃ found, Diglot.parse .javaScript ((write .javaScript nestedClauses).render 2) = .ok found ∧
        placeless found = placeless (loweredModule nestedClauses) := by
  have hstructured : ∀ stmt ∈ nestedClauses.body, stmt.all isStructured = true := by decide
  exact ⟨hstructured, parse_render_lowered 2 hstructured⟩

end Diglot.Braced
