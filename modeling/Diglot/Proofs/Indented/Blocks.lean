import Diglot.Proofs.Indented.Accepted

namespace Diglot.Indented

open Token (op kw)

section Expressions

variable {e : Expr}

-- Whether an expression is made of operators, with no sign in front of a power.
def isFormula (e : Expr) : Bool := e.all (Expr.isOperator isName) && e.all Expr.signsNoPower

-- Tokens that do not start with `print`.
abbrev Unprinted : List Token → Prop := Written.Spares (·.isKeyword "print")

theorem unprinted_withSign (sign : UnaryOp) (w : Written) :
    Unprinted (withSign sign w).tokens := by
  have hhead : (unaryToken sign).isKeyword "print" = false := by cases sign <;> rfl
  unfold withSign
  split
  · exact ⟨_, _, rfl, hhead⟩
  · exact ⟨_, _, rfl, hhead⟩

-- An expression that is made of operators does not start with `print`.
theorem unprinted_written {named : String → Bool} (h : e.all (Expr.isOperator named) = true) :
    Unprinted (written e).tokens := by
  induction e, h using Expr.operator_induct with
  | binary op left right pos _ _ hleft _ => exact (hleft.enclose rfl _ _ _).append _
  | unary op operand pos hoperand _ =>
      cases op with
      | negate => exact unprinted_withSign _ _
      | plus => exact unprinted_withSign _ _
      | not =>
          rw [written_not_of_isOperator hoperand]
          exact ⟨kw "not", _, rfl, rfl⟩
  | logical op left right pos _ _ hleft _ => exact (hleft.enclose rfl _ _ _).append _
  | compare left comparisons pos _ hleft _ _ => exact (hleft.enclose rfl _ _ _).append _
  | conditional test consequent alternate pos _ _ _ _ hconsequent _ =>
      exact (hconsequent.enclose rfl _ _ _).append _
  | number literal pos => exact ⟨_, _, rfl, rfl⟩
  | boolean value pos => exact ⟨_, _, rfl, by cases value <;> rfl⟩
  | null pos => exact ⟨_, _, rfl, rfl⟩
  | var name pos => exact ⟨_, _, rfl, rfl⟩

theorem spelled_of_isFormula (h : isFormula e = true) : e.all isSpelled = true :=
  Expr.all_imp isSpelled_of_isOperator e (Bool.and_eq_true_iff.mp h).1

theorem isUnprinted_of_isFormula (h : isFormula e = true) : isUnprinted e = true := by
  obtain ⟨first, more, htokens, hfirst⟩ := unprinted_written (Bool.and_eq_true_iff.mp h).1
  simp [isUnprinted, htokens, hfirst]

-- Such an expression is read back as it is.
theorem placeless_written (h : isFormula e = true) :
    (written e).value.placeless = e.placeless := by
  simp only [isFormula, Bool.and_eq_true] at h
  exact (value_written_eq_iff h.1).mpr h.2

theorem placeless_writtens {exprs : List Expr} (h : ∀ e ∈ exprs, isFormula e = true) :
    placeless ((exprs.map written).map Written.value) = placeless exprs := by
  rw [List.map_map]
  exact placeless_map_eq fun e he => placeless_written (h e he)

end Expressions

section Parts

variable {param : Parameter} {iteration : Iteration} {e : Expr}

-- Whether a parameter has a name and, if any, a formula as its default, which only a positional
-- parameter has.
def isPlainParam (param : Parameter) : Bool :=
  isName param.name &&
    match param.kind with
    | .positional => param.default.all isFormula
    | _ => param.default.isNone

theorem isFormula_of_isPlainParam (h : isPlainParam param = true) (he : e ∈ param.default) :
    isFormula e = true := by
  obtain ⟨name, kind, default, pos⟩ := param
  obtain rfl : default = some e := he
  cases kind with
  | positional => exact (Bool.and_eq_true_iff.mp h).2
  | rest | keywordCollector => cases (Bool.and_eq_true_iff.mp h).2

theorem isFormed_of_isPlainParam (h : isPlainParam param = true) : param.isFormed = true := by
  obtain ⟨name, kind, default, pos⟩ := param
  cases kind with
  | positional => rfl
  | rest | keywordCollector => exact (Bool.and_eq_true_iff.mp h).2

theorem placeless_writtenParam (h : isPlainParam param = true) :
    placeless (writtenParam param).value = placeless param := by
  obtain ⟨name, kind, default, pos⟩ := param
  simp only [isPlainParam, Bool.and_eq_true] at h
  cases kind with
  | positional =>
      cases default with
      | none => rfl
      | some default =>
          have hvalue := placeless_written (e := default) h.2
          simp [writtenParam, WrittenParam.value, placeless_param, placeless_expr, hvalue]
  | rest | keywordCollector =>
      obtain rfl : default = none := Option.isNone_iff_eq_none.mp h.2
      rfl

-- Whether a loop runs over a name or over a range of formulas, which has a step only if it has a
-- start.
def isPlainIteration : Iteration → Bool
  | .range start stop step =>
      start.all isFormula && isFormula stop && step.all isFormula && (step.isNone || start.isSome)
  | .each (.var name _) => isName name
  | .each _ => false

-- Whether an expression is a name.
def isNamed : Expr → Bool
  | .var name _ => isName name
  | _ => false

theorem isFormula_of_isNamed (h : isNamed e = true) :
    isFormula e = true ∧ isTarget e = true := by
  cases e with
  | var name pos =>
      have hname : isName name = true := h
      simp [isFormula, Expr.all, Expr.isOperator, Expr.signsNoPower, hname, isTarget]
  | _ => simp [isNamed] at h

theorem isAssignable_of_isNamed (h : isNamed e = true) : e.isAssignable = true := by
  cases e with
  | var name pos => rfl
  | _ => simp [isNamed] at h

theorem isFormula_of_isPlainIteration (h : isPlainIteration iteration = true)
    (he : e ∈ iteration.exprs) : isFormula e = true := by
  cases iteration with
  | each iterable =>
      obtain rfl : e = iterable := List.mem_singleton.mp he
      cases e with
      | var name pos => exact (isFormula_of_isNamed (e := .var name pos) h).1
      | _ => simp [isPlainIteration] at h
  | range start stop step =>
      simp only [isPlainIteration, Bool.and_eq_true] at h
      simp only [Iteration.exprs, List.mem_append, List.mem_cons, Option.mem_toList] at he
      rcases he with rfl | rfl | rfl
      · exact h.1.1.1
      · exact h.1.1.2
      · exact h.1.2

theorem isFormed_of_isPlainIteration (h : isPlainIteration iteration = true) :
    iteration.isFormed = true := by
  cases iteration with
  | each => rfl
  | range => exact (Bool.and_eq_true_iff.mp h).2

theorem placeless_writtenIteration (h : isPlainIteration iteration = true) :
    placeless (iterationOf (writtenIteration iteration).value) = placeless iteration := by
  cases iteration with
  | each iterable =>
      cases iterable with
      | var name pos => rfl
      | _ => simp [isPlainIteration] at h
  | range start stop step =>
      simp only [isPlainIteration, Bool.and_eq_true, Bool.or_eq_true] at h
      obtain ⟨⟨⟨hstart, hstop⟩, hstep⟩, hgiven⟩ := h
      have hvalue := placeless_written hstop
      cases start with
      | none =>
          obtain rfl : step = none := by simpa using hgiven
          change Iteration.range none (written stop).value.placeless none = .range none stop.placeless none
          rw [hvalue]
      | some start =>
          have hfirst := placeless_written (e := start) hstart
          cases step with
          | none =>
              change Iteration.range (some (written start).value.placeless)
                (written stop).value.placeless none = .range (some start.placeless) stop.placeless none
              rw [hvalue, hfirst]
          | some step =>
              have hlast := placeless_written (e := step) hstep
              change Iteration.range (some (written start).value.placeless)
                (written stop).value.placeless (some (written step).value.placeless) =
                  .range (some start.placeless) stop.placeless (some step.placeless)
              rw [hvalue, hfirst, hlast]

end Parts

section Structured

-- Whether a statement is a branch, a loop over a name or a range, a function, a `try` with a
-- handler or a cleanup, or a simple statement that assigns to names only, whose own names are names
-- and whose expressions are formulas. What stands in its blocks is not looked at.
def isStructured : Stmt → Bool
  | .functionDef name params _ _ => isName name && params.all isPlainParam
  | .ifElse condition _ elifs _ _ => isFormula condition && elifs.all (isFormula ·.condition)
  | .forIn target iteration _ _ => isName target && isPlainIteration iteration
  | .whileDo condition _ _ => isFormula condition
  | .tryCatch _ handler cleanup _ =>
      (handler.isSome || cleanup.isSome) && handler.all (·.name.all isName)
  | .returns value _ => value.all isFormula
  | .assign targets (some value) none _ =>
      !targets.isEmpty && targets.all isNamed && isFormula value
  | .augAssign target _ value _ => isNamed target && isFormula value
  | .print args _ => args.all isFormula
  | .expr value _ => isFormula value
  | .pass _ | .breaks _ | .continues _ => true
  | _ => false

theorem isStructured_assign {targets : List Expr} {value : Option Expr}
    {declaration : Option Declaration} {pos : Pos}
    (h : isStructured (.assign targets value declaration pos) = true) :
    targets ≠ [] ∧ (∀ target ∈ targets, isNamed target = true) ∧ declaration = none ∧
      ∃ given, value = some given ∧ isFormula given = true := by
  cases value with
  | none => simp [isStructured] at h
  | some value =>
      cases declaration with
      | some declaration => simp [isStructured] at h
      | none => simpa [isStructured, and_assoc] using h

variable {stmt : Stmt}

theorem isFormula_of_mem_exprs (h : isStructured stmt = true) :
    ∀ e ∈ stmt.exprs, isFormula e = true := by
  cases stmt with
  | functionDef name params body pos =>
      intro e he
      obtain ⟨param, hparam, hdefault⟩ := List.mem_filterMap.mp he
      have hparams := List.all_eq_true.mp (Bool.and_eq_true_iff.mp h).2
      exact isFormula_of_isPlainParam (hparams param hparam) hdefault
  | forIn target iteration body pos =>
      exact fun e he => isFormula_of_isPlainIteration (Bool.and_eq_true_iff.mp h).2 he
  | assign targets value declaration pos =>
      obtain ⟨-, htargets, -, value, rfl, hvalue⟩ := isStructured_assign h
      have hnamed := fun target htarget => (isFormula_of_isNamed (htargets target htarget)).1
      exact List.forall_mem_append.mpr ⟨hnamed, List.forall_mem_singleton.mpr hvalue⟩
  | augAssign target op value pos =>
      obtain ⟨htarget, hvalue⟩ := Bool.and_eq_true_iff.mp h
      simp [Stmt.exprs, (isFormula_of_isNamed htarget).1, hvalue]
  | ifElse | whileDo | print | expr => simpa [isStructured, Stmt.exprs] using h
  | returns value pos => simpa [isStructured, Stmt.exprs, Option.all_eq_true] using h
  | forClauses => simp [isStructured] at h
  | _ => simp [Stmt.exprs]

theorem isName_of_mem_words (h : isStructured stmt = true) :
    ∀ text ∈ stmt.words, isName text = true := by
  cases stmt with
  | functionDef name params body pos =>
      obtain ⟨hname, hparams⟩ := Bool.and_eq_true_iff.mp h
      rw [List.all_eq_true] at hparams
      exact List.forall_mem_cons.mpr ⟨hname, List.forall_mem_map.mpr fun param hparam =>
        (Bool.and_eq_true_iff.mp (hparams param hparam)).1⟩
  | forIn target iteration body pos =>
      exact List.forall_mem_singleton.mpr (Bool.and_eq_true_iff.mp h).1
  | tryCatch body handler cleanup pos =>
      obtain ⟨-, hname⟩ := Bool.and_eq_true_iff.mp h
      cases handler with
      | none => simp [Stmt.words]
      | some handler => simpa [Stmt.words, Option.all_eq_true] using hname
  | imports | classDef => simp [isStructured] at h
  | _ => simp [Stmt.words]

theorem isFormed_of_isStructured (h : isStructured stmt = true) : stmt.isFormed = true := by
  cases stmt with
  | functionDef name params body pos =>
      have hparams := List.all_eq_true.mp (Bool.and_eq_true_iff.mp h).2
      exact List.all_eq_true.mpr fun param hparam =>
        isFormed_of_isPlainParam (hparams param hparam)
  | forIn target iteration body pos =>
      exact isFormed_of_isPlainIteration (Bool.and_eq_true_iff.mp h).2
  | tryCatch body handler cleanup pos => exact (Bool.and_eq_true_iff.mp h).1
  | assign targets value declaration pos =>
      obtain ⟨hne, htargets, -⟩ := isStructured_assign h
      simp only [Stmt.isFormed, Bool.and_eq_true, List.all_eq_true]
      exact ⟨by simpa using hne, fun target htarget => isAssignable_of_isNamed (htargets target htarget)⟩
  | augAssign target op value pos =>
      exact isAssignable_of_isNamed (Bool.and_eq_true_iff.mp h).1
  | _ => rfl

theorem isCarried_of_isStructured (h : isStructured stmt = true) : isCarried stmt = true := by
  cases stmt with
  | assign targets value declaration pos =>
      obtain ⟨-, htargets, -⟩ := isStructured_assign h
      have hnamed := fun target htarget => isFormula_of_isNamed (htargets target htarget)
      simp only [isCarried, Bool.and_eq_true, List.all_eq_true, Option.all_eq_true]
      exact ⟨fun target htarget => (hnamed target htarget).2, fun first hfirst =>
        isUnprinted_of_isFormula (hnamed first (List.mem_of_mem_head? hfirst)).1⟩
  | augAssign target op value pos =>
      obtain ⟨hformula, htarget⟩ := isFormula_of_isNamed (Bool.and_eq_true_iff.mp h).1
      exact Bool.and_eq_true_iff.mpr ⟨htarget, isUnprinted_of_isFormula hformula⟩
  | expr value pos => exact isUnprinted_of_isFormula h
  | imports => simp [isStructured] at h
  | _ => rfl

theorem acceptable_of_isStructured {embedded : Embedder}
    (h : isStructured stmt = true) : Acceptable embedded stmt where
  words := isName_of_mem_words h
  exprs e he := sound_of_isSpelled (spelled_of_isFormula (isFormula_of_mem_exprs h e he))
  formed := isFormed_of_isStructured h
  carried := isCarried_of_isStructured h

end Structured

section Echoes

variable {body : List Stmt}

-- A statement is read back as it is, up to places and with a `pass` in each empty block.
def Echoes (stmt : Stmt) : Prop :=
  stmtsPlaceless (reread .toplevel none stmt) = [stmt.padded.placeless]

theorem placeless_rereadAll (h : ∀ stmt ∈ body, Echoes stmt) :
    stmtsPlaceless (rereadAll .toplevel none body) = stmtsPlaceless (Stmt.paddedAll body) := by
  induction body with
  | nil => rfl
  | cons first rest ih =>
      obtain ⟨hfirst, hrest⟩ := List.forall_mem_cons.mp h
      have hrest := ih hrest
      rw [Echoes] at hfirst
      rw [rereadAll, Stmt.paddedAll, stmtsPlaceless]
      rw [stmtsPlaceless_eq] at hfirst hrest ⊢
      rw [placeless_append, hfirst, hrest, List.singleton_append]

theorem placeless_rereadBlock (h : ∀ stmt ∈ body, Echoes stmt) :
    stmtsPlaceless (rereadBlock .toplevel none body) = stmtsPlaceless (Stmt.paddedBlock body) := by
  cases body with
  | nil => rfl
  | cons first rest => exact placeless_rereadAll h

theorem placeless_rereadElifs {elifs : List (ElifClause Stmt)}
    (hformula : elifs.all (isFormula ·.condition) = true)
    (h : ∀ stmt ∈ elifs.flatMap (·.body), Echoes stmt) :
    elifsPlaceless (rereadElifs .toplevel none elifs) =
      elifsPlaceless (Stmt.paddedElifs elifs) := by
  induction elifs with
  | nil => rfl
  | cons first rest ih =>
      obtain ⟨condition, body, pos⟩ := first
      rw [List.all_cons, Bool.and_eq_true] at hformula
      rw [List.flatMap_cons, List.forall_mem_append] at h
      rw [rereadElifs, elifsPlaceless, Stmt.paddedElifs, elifsPlaceless,
        placeless_written hformula.1, placeless_rereadBlock h.1, ih hformula.2 h.2]

theorem placeless_rereadOption {body : Option (List Stmt)}
    (h : ∀ stmt ∈ body.getD [], Echoes stmt) :
    bodyPlaceless (rereadOption .toplevel none body) = bodyPlaceless (Stmt.paddedBody body) := by
  cases body with
  | none => rfl
  | some body => exact congrArg some (placeless_rereadBlock h)

theorem placeless_rereadHandler {handler : Option (Handler Stmt)}
    (h : ∀ stmt ∈ (handler.map (·.body)).getD [], Echoes stmt) :
    handlerPlaceless (rereadHandler .toplevel none handler) =
      handlerPlaceless (Stmt.paddedHandler handler) := by
  cases handler with
  | none => rfl
  | some handler =>
      have hbody : ∀ stmt ∈ handler.body, Echoes stmt := h
      rw [rereadHandler, handlerPlaceless, Stmt.paddedHandler, handlerPlaceless,
        placeless_rereadBlock hbody]

-- A statement is read back as it is if the statements in it are.
theorem echoes_step {stmt : Stmt} (hstmt : isStructured stmt = true)
    (h : ∀ child ∈ stmt.children, Echoes child) : Echoes stmt := by
  unfold Echoes
  cases stmt with
  | functionDef name params body pos =>
      simp only [isStructured, Bool.and_eq_true, List.all_eq_true] at hstmt
      have hparams : placeless ((writtenParams .toplevel params).map WrittenParam.value) =
          placeless params := by
        change placeless ((params.map writtenParam).map WrittenParam.value) = placeless params
        rw [List.map_map]
        exact placeless_map_eq fun param hparam => placeless_writtenParam (hstmt.2 param hparam)
      have hname : writtenName .toplevel name = name := rfl
      have hctx : functionContext .toplevel = .toplevel := rfl
      have hbody : ∀ stmt ∈ body, Echoes stmt := h
      simp only [reread, Stmt.padded, stmtsPlaceless, Stmt.placeless, hname, hctx, hparams,
        placeless_rereadBlock hbody]
  | ifElse condition body elifs orElse pos =>
      rw [isStructured, Bool.and_eq_true] at hstmt
      simp only [Stmt.children, List.forall_mem_append] at h
      simp only [reread, Stmt.padded, stmtsPlaceless, Stmt.placeless, placeless_written hstmt.1,
        placeless_rereadBlock h.1.1, placeless_rereadElifs hstmt.2 h.1.2,
        placeless_rereadOption h.2]
  | forIn target iteration body pos =>
      rw [isStructured, Bool.and_eq_true] at hstmt
      have hbody : ∀ stmt ∈ body, Echoes stmt := h
      simp only [reread, Stmt.padded, stmtsPlaceless, Stmt.placeless,
        placeless_writtenIteration hstmt.2, placeless_rereadBlock hbody]
  | whileDo condition body pos =>
      have hbody : ∀ stmt ∈ body, Echoes stmt := h
      simp only [reread, Stmt.padded, stmtsPlaceless, Stmt.placeless, placeless_written hstmt,
        placeless_rereadBlock hbody]
  | tryCatch body handler cleanup pos =>
      simp only [Stmt.children, List.forall_mem_append] at h
      simp only [reread, Stmt.padded, stmtsPlaceless, Stmt.placeless, placeless_rereadBlock h.1.1,
        placeless_rereadHandler h.1.2, placeless_rereadOption h.2]
  | returns value pos =>
      cases value with
      | none => rfl
      | some value =>
          simp [reread, Stmt.padded, stmtsPlaceless, Stmt.placeless, placeless_expr,
            placeless_written hstmt]
  | assign targets value declaration pos =>
      obtain ⟨-, hnamed, rfl, value, rfl, hvalue⟩ := isStructured_assign hstmt
      have htargets := placeless_writtens fun e he => (isFormula_of_isNamed (hnamed e he)).1
      simp only [reread, Stmt.padded, stmtsPlaceless, Stmt.placeless, htargets, writtenValue,
        placeless_some, placeless_expr, placeless_written hvalue]
  | augAssign target op value pos =>
      rw [isStructured, Bool.and_eq_true] at hstmt
      simp only [reread, Stmt.padded, stmtsPlaceless, Stmt.placeless, placeless_written hstmt.2,
        placeless_written (isFormula_of_isNamed hstmt.1).1]
  | print args pos =>
      rw [isStructured, List.all_eq_true] at hstmt
      simp only [reread, Stmt.padded, stmtsPlaceless, Stmt.placeless, placeless_writtens hstmt]
  | expr value pos =>
      simp only [reread, Stmt.padded, stmtsPlaceless, Stmt.placeless, placeless_written hstmt]
  | pass | breaks | continues => rfl
  | _ => simp [isStructured] at hstmt

theorem echoes (stmt : Stmt) (h : stmt.all isStructured = true) : Echoes stmt := by
  induction stmt, h using Stmt.all_induct with
  | step stmt hstmt _ hchildren => exact echoes_step hstmt hchildren

end Echoes

-- The text of a program of structured statements is read back, with levels of any positive width, as
-- the program with a `pass` in each empty block.
theorem parse_render_padded {module : Module} {width : Nat} (hwidth : 0 < width)
    (h : ∀ stmt ∈ module.body, stmt.all isStructured = true) :
    ∃ found, Diglot.parse .pythonScript ((write .pythonScript module).render width) = .ok found ∧
      placeless found = placeless module.padded := by
  have hvalues := placeless_rereadAll fun stmt hstmt => echoes stmt (h stmt hstmt)
  obtain ⟨found, hparse, hfound⟩ := parse_render_of_readable module hwidth fun stmt hstmt =>
    readable hwidth (fun _ => acceptable_of_isStructured) stmt (h stmt hstmt)
  refine ⟨found, hparse, ?_⟩
  obtain ⟨body, pos⟩ := found
  rw [stmtsPlaceless_eq, stmtsPlaceless_eq] at hvalues
  rw [Module.padded, placeless_module, placeless_module, hfound, hvalues]

-- Two functions, one of them inside a loop inside a branch, and a `try` behind a dedent that closes
-- three blocks at once; some blocks are empty.
def nestedBlocks : Module :=
  let x : Expr := .var "x" .start
  let one : Expr := .number "1" .start
  ⟨[.functionDef "f" [⟨"x", .positional, none, .start⟩, ⟨"y", .positional, some one, .start⟩,
      ⟨"more", .rest, none, .start⟩, ⟨"named", .keywordCollector, none, .start⟩]
      [.ifElse (.compare x [⟨.less, one⟩] .start)
        [.forIn "i" (.range (some one) x none)
          [.functionDef "g" [] [] .start, .whileDo (.boolean true .start) [.breaks .start] .start]
          .start]
        [⟨x, [], .start⟩] (some [.returns none .start]) .start,
       .tryCatch [.assign [x, .var "y" .start] (some one) none .start]
        (some ⟨some "e", [.augAssign x .floorDivide one .start], .start⟩)
        (some [.print [x, one] .start, .expr x .start]) .start] .start,
    .pass .start], .start⟩

theorem parse_render_nestedBlocks :
    (∀ stmt ∈ nestedBlocks.body, stmt.all isStructured = true) ∧
      ∃ found, Diglot.parse .pythonScript ((write .pythonScript nestedBlocks).render 3) = .ok found ∧
        placeless found = placeless nestedBlocks.padded := by
  have hstructured : ∀ stmt ∈ nestedBlocks.body, stmt.all isStructured = true := by decide
  exact ⟨hstructured, parse_render_padded (by decide) hstructured⟩

end Diglot.Indented
