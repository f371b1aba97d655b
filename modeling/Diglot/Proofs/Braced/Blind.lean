import Diglot.Proofs.Parser.Aloof

namespace Diglot.Braced

open Diglot.Parser Bond

theorem propertyName_aloof : Aloof propertyName :=
  current_aloof.bind fun _ => .ite (advance_aloof.bind fun _ => .pure rfl) (unexpected_inStep _)

theorem member_placeless (path : List String) (object : Expr) (pos : Pos) :
    path.foldl (fun object name => .member object name .start) (placeless object) =
      placeless (path.foldl (fun object name => .member object name pos) object) := by
  induction path generalizing object with
  | nil => rfl
  | cons name path ih => exact ih (.member object name pos)

section Levels

variable {expression : Parser Expr} {limit : Nat} (hexpression : Aloof expression)

include hexpression

theorem propertyValue_alike (key : Token) :
    Alike (propertyValue expression key) (propertyValue expression (placeless key)) :=
  .test (eatOperator_steady ":") hexpression (.ite (.pure rfl) (unexpected_inStep _))

theorem property_aloof : Aloof (property expression) := by
  refine current_aloof.bind fun token => ?_
  have hentry : ∀ key : DictKey Expr,
      Alike (do return (⟨key, ← propertyValue expression token⟩ : DictEntry Expr))
        (do return ⟨placeless key, ← propertyValue expression (placeless token)⟩) :=
    fun _ => (propertyValue_alike hexpression token).bind fun _ => .pure rfl
  obtain ⟨kind, lexeme, pos⟩ := token
  cases kind with
  | identifier | keyword | string | number => exact advance_aloof.bind fun _ => hentry _
  | _ =>
      refine .test (eatOperator_steady "[") ?_ (unexpected_inStep _)
      exact hexpression.bind fun key => (expectOperator_steady "]").bind fun _ =>
        hentry (.computed key)

theorem construction_aloof : Aloof (construction expression limit) := by
  have hdot : Aloof (do if ← eatOperator "." then return some () else return none) :=
    .test (eatOperator_steady ".") (.pure rfl) (.pure rfl)
  refine position_steady.bind fun pos => (expectKeyword_steady "new").bind fun _ =>
    identifier_steady.bind fun name =>
      (whilst_inStep hdot (fun _ => propertyName_aloof) limit).bind fun path => ?_
  have hcallee := member_placeless path (.var name pos) pos
  rw [placeless_list_eq_self placeless_string path]
  refine .test (eatOperator_steady "(") ((enclosed_steady ")" hexpression limit).bind
    fun args => .pure ?_) (.pure (congrArg (Expr.construct · [] .start) hcallee))
  exact (congrArg (Expr.construct · (placeless args) .start) hcallee).trans
    (congrArg (Expr.construct _ · .start) (exprsPlaceless_eq args).symm)

theorem primary_aloof : Aloof (primary expression limit) := by
  refine current_aloof.bind fun token => ?_
  obtain ⟨kind, lexeme, pos⟩ := token
  cases kind with
  | number | string | template | identifier => exact advance_aloof.bind fun _ => .pure rfl
  | keyword =>
      dsimp only [placeless_token]
      split
      case h_7 => exact construction_aloof hexpression
      case h_8 => exact unexpected_inStep _
      all_goals exact advance_aloof.bind fun _ => .pure rfl
  | operator =>
      dsimp only [placeless_token]
      split
      · exact advance_aloof.bind fun _ => hexpression.bind fun _ =>
          (expectOperator_steady ")").bind fun _ => .pure rfl
      · exact advance_aloof.bind fun _ => (enclosed_steady "]" hexpression limit).bind
          fun elements => .pure (congrArg (Expr.list · .start) (exprsPlaceless_eq elements).symm)
      · exact advance_aloof.bind fun _ =>
          (enclosed_steady "\x7d" (property_aloof hexpression) limit).bind fun entries =>
            .pure (congrArg (Expr.dict · .start) (entriesPlaceless_eq entries).symm)
      · exact unexpected_inStep _
  | interpolated | indent | dedent | newline | eof => exact unexpected_inStep _

theorem suffixes_alike (rounds : Nat) (object : Expr)
    (pos : Pos) : Alike (suffixes expression limit pos rounds object)
      (suffixes expression limit .start rounds (placeless object)) := by
  induction rounds generalizing object with
  | zero => exact exhausted_inStep
  | succ rounds ih =>
      refine .test (eatOperator_steady ".") ?_ (.test (eatOperator_steady "[") ?_
        (.test (eatOperator_steady "(") ?_ (.pure rfl)))
      · exact propertyName_aloof.bind fun name => ih (.member object name pos)
      · exact hexpression.bind fun index => (expectOperator_steady "]").bind fun _ =>
          ih (.index object index pos)
      · refine (enclosed_steady ")" hexpression limit).bind fun args => ?_
        rw [← exprsPlaceless_eq]
        exact ih (.call object args pos)

theorem suffixed_aloof : Aloof (suffixed expression limit) :=
  position_steady.bind fun pos => (primary_aloof hexpression).bind fun object =>
    suffixes_alike hexpression limit object pos

theorem unary_aloof (rounds : Nat) :
    Aloof (unary expression limit rounds) := by
  induction rounds with
  | zero => exact exhausted_inStep
  | succ rounds ih =>
      refine position_steady.bind fun pos => (oneOperator_steady unaryOps fun _ => rfl).bind
        fun found => ?_
      cases found with
      | none => exact suffixed_aloof hexpression
      | some op => exact ih.bind fun _ => .pure rfl

theorem power_aloof (rounds : Nat) :
    Aloof (power expression limit rounds) := by
  induction rounds with
  | zero => exact exhausted_inStep
  | succ rounds ih =>
      exact position_steady.bind fun _ => (unary_aloof hexpression limit).bind fun _ =>
        .test (eatOperator_steady "**") (ih.bind fun _ => .pure rfl) (.pure rfl)

-- The left-associative levels, from tight to loose.

theorem product_aloof : Aloof (product expression limit) :=
  leftAssoc_steady (oneOperator_steady _ fun _ => rfl) (power_aloof hexpression limit)
    (fun _ _ _ _ => rfl) limit

theorem sum_aloof : Aloof (sum expression limit) :=
  leftAssoc_steady (oneOperator_steady _ fun _ => rfl) (product_aloof hexpression)
    (fun _ _ _ _ => rfl) limit

theorem relation_aloof : Aloof (relation expression limit) :=
  leftAssoc_steady (oneOperator_steady _ fun _ => rfl) (sum_aloof hexpression)
    (fun _ _ _ _ => rfl) limit

theorem equality_aloof : Aloof (equality expression limit) :=
  leftAssoc_steady (oneOperator_steady _ fun _ => rfl) (relation_aloof hexpression)
    (fun _ _ _ _ => rfl) limit

theorem conjunction_aloof : Aloof (conjunction expression limit) :=
  leftAssoc_steady (oneOperator_steady _ fun _ => rfl) (equality_aloof hexpression)
    (fun _ _ _ _ => rfl) limit

theorem disjunction_aloof : Aloof (disjunction expression limit) :=
  leftAssoc_steady (oneOperator_steady _ fun _ => rfl) (conjunction_aloof hexpression)
    (fun _ _ _ _ => rfl) limit

theorem conditional_aloof : Aloof (conditional expression limit) :=
  position_steady.bind fun _ => (disjunction_aloof hexpression).bind fun _ =>
    .test (eatOperator_steady "?") (hexpression.bind fun _ => (expectOperator_steady ":").bind
      fun _ => hexpression.bind fun _ => .pure rfl) (.pure rfl)

end Levels

theorem expression_aloof (limit : Nat) : Aloof (expression limit) := by
  induction limit with
  | zero => exact exhausted_inStep
  | succ limit ih => exact conditional_aloof ih

theorem expression_blind (limit : Nat) : Blind (expression limit) := (expression_aloof limit).blind

section Recognition

theorem pos_placeless (e : Expr) : (placeless e).pos = .start := by cases e <;> rfl

theorem isNumber_placeless (e : Expr) (literal : String) :
    (placeless e).isNumber literal = e.isNumber literal := by cases e <;> rfl

theorem var?_placeless (e : Expr) : (placeless e).var? = e.var? := by cases e <;> rfl

theorem isConsoleLog_member (owner name : String) (place pos : Pos) :
    isConsoleLog (.member (.var owner place) name pos) = (owner == "console" && name == "log") := by
  unfold isConsoleLog
  split
  · simp_all
  · rename_i hother
    by_cases howner : owner = "console"
    · by_cases hname : name = "log"
      · exact (hother place pos (by rw [howner, hname])).elim
      · simp [hname]
    · simp [howner]

theorem isConsoleLog_placeless (e : Expr) : isConsoleLog (placeless e) = isConsoleLog e := by
  cases e with
  | member object name pos =>
      cases object with
      | var owner place => simp only [placeless_expr, Expr.placeless, isConsoleLog_member]
      | _ => rfl
  | _ => rfl

theorem recognizePrint_placeless (stmt : Stmt) :
    recognizePrint (placeless stmt) = placeless (recognizePrint stmt) := by
  cases stmt with
  | expr value pos =>
      cases value with
      | call callee args place =>
          have hcallee := isConsoleLog_placeless callee
          simp only [placeless_expr] at hcallee
          simp only [placeless_stmt, Stmt.placeless, Expr.placeless, recognizePrint, hcallee]
          split
          · simp [Stmt.placeless, exprsPlaceless_eq]
          · simp [Stmt.placeless, Expr.placeless]
      | _ => rfl
  | _ => rfl

theorem initialised?_placeless (stmt : Stmt) :
    initialised? (placeless stmt) = placeless (initialised? stmt) := by
  cases stmt with
  | assign targets value declaration pos =>
      match targets, value with
      | [target], some value =>
          simp only [placeless_stmt, Stmt.placeless, placeless_cons, placeless_nil, placeless_some,
            initialised?, var?_placeless]
          cases target.var? <;> rfl
      | [_], none | [], _ | _ :: _ :: _, _ => rfl
  | _ => rfl

theorem bounded?_placeless (name : String) (e : Expr) :
    bounded? name (placeless e) = placeless (bounded? name e) := by
  cases e with
  | compare left comparisons pos =>
      match comparisons with
      | [⟨op, stop⟩] =>
          have hleft := var?_placeless left
          simp only [placeless_expr] at hleft
          simp only [placeless_expr, Expr.placeless, linksPlaceless, bounded?, hleft]
          split <;> rfl
      | [] | _ :: _ :: _ => rfl
  | _ => rfl

theorem changed?_placeless (name : String) (stmt : Stmt) :
    changed? name (placeless stmt) = placeless (changed? name stmt) := by
  cases stmt with
  | augAssign target op amount pos =>
      have htarget := var?_placeless target
      simp only [placeless_expr] at htarget
      simp only [placeless_stmt, Stmt.placeless, changed?, htarget]
      split <;> rfl
  | _ => rfl

theorem step?_placeless (op : CompareOp) (change : BinaryOp) (amount : Expr) :
    step? op change (placeless amount) = placeless (step? op change amount) := by
  unfold step?
  split
  · rw [isNumber_placeless]
    split <;> rfl
  · rw [pos_placeless]
    rfl
  · rfl

theorem bind_placeless {α β : Type} [Placed α] [Placed β] {f g : α → Option β}
    (h : ∀ a, g (placeless a) = placeless (f a)) (o : Option α) :
    (placeless o >>= g) = placeless (o >>= f) := by
  cases o with
  | none => rfl
  | some a => exact h a

-- A counting loop is told without its places.
theorem countingLoop?_placeless (init : Option Stmt) (test : Option Expr) (update : Option Stmt) :
    countingLoop? (placeless init) (placeless test) (placeless update) =
      placeless (countingLoop? init test update) := by
  refine bind_placeless (fun stmt => ?_) init
  rw [initialised?_placeless]
  refine bind_placeless (fun (target, start) => ?_) (initialised? stmt)
  refine bind_placeless (fun condition => ?_) test
  rw [bounded?_placeless]
  refine bind_placeless (fun (op, stop) => ?_) (bounded? target condition)
  refine bind_placeless (fun found => ?_) update
  rw [changed?_placeless]
  refine bind_placeless (fun (change, amount) => ?_) (changed? target found)
  change (step? op change (placeless amount) >>= _) = _
  rw [step?_placeless]
  refine bind_placeless (fun step => ?_) (step? op change amount)
  have hstep : (placeless step).isNone = step.isNone := by cases step <;> rfl
  dsimp only
  rw [isNumber_placeless, hstep]
  split <;> rfl

theorem declaration?_placeless (token : Token) :
    declaration? (placeless token) = declaration? token := rfl

end Recognition

theorem endOfStatement_aloof : Aloof endOfStatement :=
  (eatOperator_steady ";").bind fun _ => .pure rfl

theorem endOfBlock_aloof : Aloof endOfBlock :=
  .test (eatOperator_steady "\x7d") (.pure rfl)
    (.test isAtEnd_steady (unexpected_inStep _) (.pure rfl))

theorem importedName_aloof : Aloof importedName :=
  identifier_steady.bind fun _ => .test (eatKeyword_steady "as")
    (identifier_steady.bind fun _ => .pure rfl) (.pure rfl)

theorem importKind_aloof (limit : Nat) : Aloof (importKind limit) := by
  have hwhole : Aloof (do return ImportKind.whole (some (← identifier))) :=
    identifier_steady.bind fun _ => .pure rfl
  refine .test (eatOperator_steady "\x7b") ?_ (.test (eatOperator_steady "*")
    ((expectKeyword_steady "as").bind fun _ => hwhole) hwhole)
  exact (enclosed_steady "\x7d" importedName_aloof limit).bind fun names =>
    .pure (congrArg ImportKind.names (placeless_list_eq_self (fun _ => rfl) names))

theorem importStatement_aloof (limit : Nat) : Aloof (importStatement limit) :=
  position_steady.bind fun _ => (expectKeyword_steady "import").bind fun _ =>
    .test (check_steady .string)
      (advance_aloof.bind fun _ => endOfStatement_aloof.bind fun _ => .pure rfl)
      ((importKind_aloof limit).bind fun _ => (expectKeyword_steady "from").bind fun _ =>
        (expect_steady rfl none).bind fun _ => endOfStatement_aloof.bind fun _ => .pure rfl)

section Statements

variable {expression : Parser Expr} {statement : Parser Stmt} {limit : Nat}

theorem any_placeless (found : Option Token) (p : Token → Bool)
    (hp : ∀ token, p (placeless token) = p token) : (placeless found).any p = found.any p := by
  cases found with
  | none => rfl
  | some token => exact hp token

theorem keywordStatement_aloof {node : Pos → Stmt}
    (hnode : ∀ pos, node .start = placeless (node pos)) : Aloof (keywordStatement node) :=
  advance_aloof.bind fun _ => endOfStatement_aloof.bind fun _ => .pure (hnode _)

section Blocks

variable (hstatement : Aloof statement)

include hstatement

theorem block_aloof : Aloof (block statement limit) :=
  (expectOperator_steady "\x7b").bind fun _ =>
    repeated_aloof skipSemicolons_aloof endOfBlock_aloof hstatement limit

theorem body_aloof : Aloof (body statement limit) :=
  .test (checkOperator_steady "\x7b") (block_aloof hstatement)
    (hstatement.bind fun _ => .pure rfl)

theorem handler?_aloof : Aloof (handler? statement limit) := by
  refine position_steady.bind fun _ => .test (eatKeyword_steady "catch")
    (.test (eatOperator_steady "(") (identifier_steady.bind fun _ =>
      (expectOperator_steady ")").bind fun _ => (InStep.pure rfl).bind ?block)
        ((InStep.pure rfl).bind ?block)) (.pure rfl)
  intro name
  rw [placeless_option_eq_self placeless_string name]
  exact (block_aloof hstatement).bind fun _ => .pure rfl

theorem tryStatement_aloof : Aloof (tryStatement statement limit) := by
  refine position_steady.bind fun _ => (expectKeyword_steady "try").bind fun _ =>
    (block_aloof hstatement).bind fun body => (handler?_aloof hstatement).bind fun handler =>
      .test (eatKeyword_steady "finally") ((block_aloof hstatement).bind fun _ =>
        (InStep.pure rfl).bind ?close) ((InStep.pure rfl).bind ?close)
  intro cleanup
  have hnone : ((placeless handler).isNone && (placeless cleanup).isNone) =
      (handler.isNone && cleanup.isNone) := by
    cases handler <;> cases cleanup <;> rfl
  dsimp only
  rw [hnone]
  refine .ite (unexpected_inStep _) (.pure ?_)
  simp [placeless_stmt, Stmt.placeless, stmtsPlaceless_eq, handlerPlaceless_eq, bodyPlaceless_eq]

end Blocks

variable (hexpression : Aloof expression)

include hexpression

theorem declare_aloof (declaration : Declaration) :
    Aloof (declare expression declaration) := by
  refine position_steady.bind fun _ => advance_aloof.bind fun _ => position_steady.bind fun _ =>
    identifier_steady.bind fun _ => .test (eatOperator_steady "=") (hexpression.bind fun _ =>
      (InStep.pure rfl).bind ?close) ((InStep.pure rfl).bind ?close)
  exact fun _ => .test (checkOperator_steady ",") (refused_inStep _) (.pure rfl)

theorem parameter_aloof : Aloof (parameter expression) :=
  position_steady.bind fun _ => .test (eatOperator_steady "...")
    (identifier_steady.bind fun _ => .pure rfl)
    (identifier_steady.bind fun _ => .test (eatOperator_steady "=")
      (hexpression.bind fun _ => .pure rfl) (.pure rfl))

theorem inlineStatement_aloof : Aloof (inlineStatement expression limit) := by
  refine position_steady.bind fun pos => (oneOperator_steady incrementOps fun _ => rfl).bind
    fun found => ?_
  cases found with
  | some op =>
      exact (unary_aloof hexpression limit).bind fun target =>
        (checkAssignable_inStep target).bind fun _ => .pure rfl
  | none =>
      refine hexpression.bind fun first => current_aloof.bind fun token =>
        .ite (assignment_alike hexpression limit first pos) ?_
      dsimp only [placeless, Token.isOperator, Token.is]
      cases augmentedOps.find? _ with
      | some entry => exact augmented_alike hexpression entry.2 first pos
      | none =>
          cases incrementOps.find? _ with
          | some entry => exact (checkAssignable_inStep first).bind fun _ =>
              advance_aloof.bind fun _ => .pure rfl
          | none => exact .pure rfl

theorem simpleStatement_aloof : Aloof (simpleStatement expression limit) :=
  (inlineStatement_aloof hexpression).bind fun found => endOfStatement_aloof.bind fun _ =>
    .pure (recognizePrint_placeless found)

theorem initClause_aloof : Aloof (initClause expression limit) := by
  refine .test (checkOperator_steady ";") (.pure rfl) (current_aloof.bind fun token => ?_)
  rw [declaration?_placeless]
  cases declaration? token with
  | some declaration => exact (declare_aloof hexpression declaration).bind fun _ => .pure rfl
  | none => exact (inlineStatement_aloof hexpression).bind fun _ => .pure rfl

theorem returnStatement_aloof : Aloof (returnStatement expression) := by
  refine position_steady.bind fun _ => (expectKeyword_steady "return").bind fun _ =>
    (checkOperator_steady ";").bind fun _ => (checkOperator_steady "\x7d").bind fun _ =>
      isAtEnd_steady.bind fun _ => .ite ((InStep.pure rfl).bind ?close) (hexpression.bind fun _ =>
        (InStep.pure rfl).bind ?close)
  exact fun _ => endOfStatement_aloof.bind fun _ => .pure rfl

section Compound

variable (hstatement : Aloof statement)

include hstatement

theorem functionRest_alike (name : String) (pos : Pos) :
    Alike (functionRest expression statement limit name pos)
      (functionRest expression statement limit name .start) :=
  (expectOperator_steady "(").bind fun _ =>
    (enclosed_steady ")" (parameter_aloof hexpression) limit).bind fun params =>
      (block_aloof hstatement).bind fun body =>
        .pure (congrArg (Stmt.functionDef name (placeless params) · .start)
          (stmtsPlaceless_eq body).symm)

theorem functionDef_aloof : Aloof (functionDef expression statement limit) :=
  position_steady.bind fun pos => (expectKeyword_steady "function").bind fun _ =>
    identifier_steady.bind fun name => functionRest_alike hexpression hstatement name pos

theorem classMember_aloof : Aloof (classMember expression statement limit) := by
  refine current_aloof.bind fun token => (peek_aloof 1).bind fun next => ?_
  rw [any_placeless next _ fun _ => rfl]
  refine .ite (advance_aloof.bind fun _ => ?member) ?member
  refine position_steady.bind fun pos => identifier_steady.bind fun name =>
    .test (checkOperator_steady "(") (functionRest_alike hexpression hstatement name pos)
      (.test (eatOperator_steady "=") (hexpression.bind fun _ => (InStep.pure rfl).bind ?close)
        ((InStep.pure rfl).bind ?close))
  exact fun _ => endOfStatement_aloof.bind fun _ => .pure rfl

theorem classDef_aloof : Aloof (classDef expression statement limit) := by
  refine position_steady.bind fun _ => (expectKeyword_steady "class").bind fun _ =>
    identifier_steady.bind fun name => .test (eatKeyword_steady "extends")
      (identifier_steady.bind fun _ => (InStep.pure rfl).bind ?close)
      ((InStep.pure rfl).bind ?close)
  intro base
  rw [placeless_option_eq_self placeless_string base]
  exact (expectOperator_steady "\x7b").bind fun _ =>
    (repeated_aloof skipSemicolons_aloof endOfBlock_aloof
      (classMember_aloof hexpression hstatement) limit).bind fun body =>
        .pure (congrArg (Stmt.classDef name base · .start) (stmtsPlaceless_eq body).symm)

theorem conditionAndBody_aloof (keyword : String) :
    Aloof (conditionAndBody expression statement limit keyword) :=
  (expectKeyword_steady keyword).bind fun _ => (expectOperator_steady "(").bind fun _ =>
    hexpression.bind fun _ => (expectOperator_steady ")").bind fun _ =>
      (body_aloof hstatement).bind fun _ => .pure rfl

theorem branches_aloof (rounds : Nat) : Aloof (branches expression statement limit rounds) := by
  induction rounds with
  | zero => exact exhausted_inStep
  | succ rounds ih =>
      exact .test (eatKeyword_steady "else") (.test (checkKeyword_aloof "if")
        (position_steady.bind fun _ => (conditionAndBody_aloof hexpression hstatement "if").bind
          fun _ => ih.bind fun _ => .pure rfl)
        ((body_aloof hstatement).bind fun _ => .pure rfl)) (.pure rfl)

theorem ifStatement_aloof : Aloof (ifStatement expression statement limit) := by
  refine position_steady.bind fun pos =>
    (conditionAndBody_aloof hexpression hstatement "if").bind fun (condition, body) =>
      (branches_aloof hexpression hstatement limit).bind fun (elifs, orElse) => .pure ?_
  simp [placeless_stmt, placeless_expr, Stmt.placeless, stmtsPlaceless_eq, elifsPlaceless_eq,
    bodyPlaceless_eq]

theorem whileStatement_aloof : Aloof (whileStatement expression statement limit) :=
  position_steady.bind fun _ => (conditionAndBody_aloof hexpression hstatement "while").bind
    fun (condition, body) =>
      .pure (congrArg (Stmt.whileDo (placeless condition) · .start) (stmtsPlaceless_eq body).symm)

theorem clauseLoop_alike (pos : Pos) : Alike (clauseLoop expression statement limit pos)
      (clauseLoop expression statement limit .start) := by
  refine (initClause_aloof hexpression).bind fun init => (expectOperator_steady ";").bind fun _ =>
    .test (checkOperator_steady ";") ((InStep.pure rfl).bind ?test)
      (hexpression.bind fun _ => (InStep.pure rfl).bind ?test)
  refine fun test => (expectOperator_steady ";").bind fun _ => .test (checkOperator_steady ")")
    ((InStep.pure rfl).bind ?update) ((inlineStatement_aloof hexpression).bind fun _ =>
      (InStep.pure rfl).bind ?update)
  refine fun update => (expectOperator_steady ")").bind fun _ => (body_aloof hstatement).bind
    fun body => ?_
  rw [countingLoop?_placeless]
  cases countingLoop? init test update with
  | none =>
      refine .pure ?_
      simp [placeless_stmt, Stmt.placeless, clausePlaceless_eq, stmtsPlaceless_eq]
  | some found =>
      refine .pure ?_
      simp [placeless_stmt, Stmt.placeless, stmtsPlaceless_eq]

theorem eachLoop_alike (pos : Pos) : Alike (eachLoop expression statement limit pos)
      (eachLoop expression statement limit .start) := by
  refine current_aloof.bind fun token => ?_
  rw [declaration?_placeless]
  refine .ite (advance_aloof.bind fun _ => ?rest) ?rest
  exact identifier_steady.bind fun target => (expectKeyword_steady "of").bind fun _ =>
    hexpression.bind fun iterable => (expectOperator_steady ")").bind fun _ =>
      (body_aloof hstatement).bind fun body =>
        .pure (congrArg (Stmt.forIn target (.each (placeless iterable)) · .start)
          (stmtsPlaceless_eq body).symm)

theorem forStatement_aloof : Aloof (forStatement expression statement limit) := by
  refine position_steady.bind fun pos => (expectKeyword_steady "for").bind fun _ =>
    (expectOperator_steady "(").bind fun _ => current_aloof.bind fun token => ?_
  rw [declaration?_placeless]
  refine (peek_aloof _).bind fun name => (peek_aloof _).bind fun word => ?_
  rw [any_placeless name _ fun _ => rfl, any_placeless word _ fun _ => rfl]
  exact .ite (eachLoop_alike hexpression hstatement pos)
    (clauseLoop_alike hexpression hstatement pos)

theorem anyStatement_aloof : Aloof (anyStatement expression statement limit) := by
  refine current_aloof.bind fun token => .ite (refused_inStep _)
    (.ite (simpleStatement_aloof hexpression) ?_)
  rw [declaration?_placeless]
  have hlexeme : (placeless token).lexeme = token.lexeme := rfl
  rw [hlexeme]
  split
  · exact importStatement_aloof limit
  · exact advance_aloof.bind fun _ => current_aloof.bind fun _ =>
      .ite (advance_aloof.bind fun _ => hstatement) hstatement
  · exact functionDef_aloof hexpression hstatement
  · exact classDef_aloof hexpression hstatement
  · exact ifStatement_aloof hexpression hstatement
  · exact forStatement_aloof hexpression hstatement
  · exact whileStatement_aloof hexpression hstatement
  · exact tryStatement_aloof hstatement
  · exact returnStatement_aloof hexpression
  · exact keywordStatement_aloof fun _ => rfl
  · exact keywordStatement_aloof fun _ => rfl
  · cases declaration? token with
    | some declaration =>
        exact (declare_aloof hexpression declaration).bind fun _ =>
          endOfStatement_aloof.bind fun _ => .pure rfl
    | none => exact simpleStatement_aloof hexpression

end Compound

theorem statement_aloof (limit : Nat) :
    Aloof (Braced.statement expression limit) := by
  induction limit with
  | zero => exact exhausted_inStep
  | succ limit ih => exact anyStatement_aloof hexpression ih

end Statements

theorem program_blind (limit rounds : Nat) : Blind (program (expression limit) rounds) := by
  have hstatement := statement_aloof (expression_aloof limit) rounds
  have hprogram : Aloof (program (expression limit) rounds) := position_steady.bind fun _ =>
    (repeated_aloof skipSemicolons_aloof isAtEnd_steady hstatement rounds).bind fun _ => .pure rfl
  exact hprogram.blind

end Diglot.Braced
