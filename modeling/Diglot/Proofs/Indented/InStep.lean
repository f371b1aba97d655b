import Diglot.Proofs.Parser.Aloof

namespace Diglot.Indented

open Diglot.Parser Bond

-- Two runs of a reader on streams that are in step stay in step. Expressions do not look beyond
-- their line. A statement may leave the runs at different numbers of line feeds.

variable {B : Bond}

-- What reads the expressions inside interpolated strings.
abbrev Embedder := List Char → Except Cause Expr

theorem joinedBy_steady (keyword : String) (op : BoolOp) :
    B.Steady (joinedBy keyword op) (joinedBy keyword op) :=
  .test (eatKeyword_steady keyword) (.pure rfl) (.pure rfl)

-- Whether the two words of an operator stand there.
def atNotIn (s : TokenStream) : Bool :=
  s.current.isKeyword "not" && (s.peek 1).any (·.isKeyword "in")

-- The second word is looked at only where the first is no line feed.
theorem atNotIn_eq {s t : TokenStream} (h : B.tight s t) : atNotIn s = atNotIn t := by
  have hfirst : s.current.isKeyword "not" = t.current.isKeyword "not" := is_eq h (by decide) _
  unfold atNotIn
  rw [← hfirst]
  cases hnot : s.current.isKeyword "not" with
  | false => rfl
  | true =>
      have hplain : s.current.isPlain = true := isPlain_of_is hnot rfl
      exact B.next h (ne_of_isPlain hplain).1 .keyword (by decide) "in"

theorem isPlain_behind_not {s s' : TokenStream} {token : Token} (h : atNotIn s = true)
    (hs : s.advance = .ok (token, s')) : s'.current.isPlain = true := by
  obtain ⟨current, upcoming, blocks⟩ := s
  obtain ⟨hnot, hin⟩ := Bool.and_eq_true_iff.mp h
  have hkind : current.kind = .keyword := eq_of_beq (Bool.and_eq_true_iff.mp hnot).1
  cases upcoming with
  | nil => cases hin
  | cons next rest =>
      rw [TokenStream.advance_of_isSolid (by simp [Token.isSolid, hkind])] at hs
      cases hs
      have hend : (current.kind == .eof) = false := by simp [hkind]
      have hnext : next.isKeyword "in" = true := hin
      simpa [TokenStream.move, TokenStream.isAtEnd, hend] using isPlain_of_is hnext rfl

theorem advance_notIn :
    B.InStep (fun s t => B.tight s t ∧ atNotIn s = true) B.fresh Bare advance advance := by
  rintro s t ⟨hst, hwords⟩
  have hplain : s.current.isPlain = true := isPlain_of_is (Bool.and_eq_true_iff.mp hwords).1 rfl
  rcases (advance_fresh ⟨hst, hplain⟩).cases with
    ⟨failure, other, hs, ht, h⟩ | ⟨a, s', b, t', hs, ht, hab, hst'⟩
  · rw [hs, ht]
    exact h
  · rw [hs, ht]
    exact ⟨hab, hst', isPlain_behind_not hwords hs⟩

theorem compareOp?_steady : B.Steady compareOp? compareOp? := by
  refine (oneOperator_steady compareOps fun _ => rfl).bind fun found => ?_
  cases found with
  | some op => exact .pure rfl
  | none =>
      refine .test (eatKeyword_steady "in") (.pure rfl) fun s t hst => ?_
      have hwords : ∀ p : Parser (Option CompareOp), p = (do
            if atNotIn (← get) then
              let _ ← advance
              let _ ← advance
              return some CompareOp.notIn
            else return none) → B.Steady p p := by
        rintro _ rfl
        exact .look atNotIn_eq (advance_notIn.bind fun _ => advance_fresh.bind fun _ => .pure rfl)
          (.give rfl And.left)
      exact hwords _ rfl hst

-- Segments without places.

theorem segmentsPlaceless_eq (segments : List (Segment Expr)) :
    segmentsPlaceless segments = placeless segments := by
  induction segments with
  | nil => rfl
  | cons first rest ih => cases first <;> rw [segmentsPlaceless, ih, placeless_cons] <;> rfl

theorem consChar_placeless (c : Char) (segments : List (Segment Expr)) :
    Segment.consChar c (placeless segments) = placeless (Segment.consChar c segments) := by
  cases segments with
  | nil => rfl
  | cons first rest => cases first <;> rfl

-- A reader of embedded expressions that gives them without places.
def bare (embedded : Embedder) (source : List Char) : Except Cause Expr :=
  (embedded source).map placeless

theorem segments_bare (embedded : Embedder) (text : List Char) :
    segments (bare embedded) text = (segments embedded text).map placeless := by
  have hcons : ∀ (c : Char) (found : Except Cause (List (Segment Expr))),
      (found.map placeless).map (Segment.consChar c) =
        (found.map (Segment.consChar c)).map placeless := by
    intro c found
    cases found with
    | error cause => rfl
    | ok found => exact congrArg Except.ok (consChar_placeless c found)
  fun_induction segments embedded text with
  | case1 =>
      rw [segments]
      rfl
  | case2 rest ih => rw [segments, ih, hcons]
  | case3 rest ih => rw [segments, ih, hcons]
  | case4 rest hopen hclose =>
      rw [segments_unclosed _ hopen hclose]
      rfl
  | case5 rest hopen source behind hclose _ ih =>
      rw [segments_closed _ hopen hclose, ih, bare]
      cases embedded source with
      | error cause => rfl
      | ok value => cases segments embedded behind <;> rfl
  | case6 c rest h1 h2 h3 ih => rw [segments.eq_5 _ _ _ h1 h2 h3, ih, hcons]

theorem dictKey_placeless (e : Expr) : dictKey (placeless e) = placeless (dictKey e) := by
  cases e <;> rfl

section Levels

variable {embedded : Embedder} {x y : Parser Expr} {limit : Nat} (hx : B.Steady x y)

include hx

theorem dictEntry_steady : B.Steady (dictEntry x) (dictEntry y) := by
  refine hx.bind fun key => (expectOperator_steady ":").bind fun _ => hx.bind fun value => .pure ?_
  rw [dictKey_placeless, placeless_entry]

theorem primary_steady : B.Steady (primary embedded x limit) (primary (bare embedded) y limit) := by
  refine .current fun a b hkind hsame => ?_
  obtain ⟨kind, lexeme, pos⟩ := a
  cases kind with
  | number | string | identifier =>
      obtain rfl := hsame (by simp)
      exact (advance_current rfl).bind fun _ => .pure rfl
  | interpolated =>
      obtain rfl := hsame (by simp)
      refine (advance_current rfl).bind fun _ => ?_
      dsimp only [placeless_token]
      rw [segments_bare]
      cases segments embedded lexeme.toList with
      | ok found => exact .pure (congrArg (Expr.interpolated · .start) (segmentsPlaceless_eq found).symm)
      | error reason => exact .fail
  | keyword =>
      obtain rfl := hsame (by simp)
      dsimp only [placeless_token]
      split
      case h_5 => exact (unexpected_inStep _).mono And.left id
      all_goals exact (advance_current rfl).bind fun _ => .pure rfl
  | operator =>
      obtain rfl := hsame (by simp)
      dsimp only [placeless_token]
      split
      · exact (advance_current rfl).bind fun _ => hx.bind fun _ =>
          (expectOperator_steady ")").bind fun _ => .pure rfl
      · exact (advance_current rfl).bind fun _ => (enclosed_steady "]" hx limit).bind
          fun elements => .pure (congrArg (Expr.list · .start) (exprsPlaceless_eq elements).symm)
      · exact (advance_current rfl).bind fun _ =>
          (enclosed_steady "\x7d" (dictEntry_steady hx) limit).bind fun entries =>
            .pure (congrArg (Expr.dict · .start) (entriesPlaceless_eq entries).symm)
      · exact (unexpected_inStep _).mono And.left id
  | template | indent | dedent | newline | eof =>
      obtain ⟨other, lexeme', pos'⟩ := b
      obtain rfl := hkind
      exact (unexpected_inStep _).mono And.left id

theorem sliceRest_steady (object : Expr) (start : Option Expr) (pos : Pos) :
    B.Steady (sliceRest x object start pos)
      (sliceRest y (placeless object) (placeless start) .start) := by
  refine (checkOperator_steady "]").bind fun _ => (checkOperator_steady ":").bind fun _ => ?_
  -- What follows the stop is read in the same way whether there is a stop or not.
  refine .ite ((InStep.pure rfl).bind ?rest) (hx.bind fun _ => (InStep.pure rfl).bind ?rest)
  refine fun stop => .test (eatOperator_steady ":") (.test (checkOperator_steady "]")
    ((InStep.pure rfl).bind ?close) (hx.bind fun _ => (InStep.pure rfl).bind ?close))
      ((InStep.pure rfl).bind ?close)
  refine fun step => (expectOperator_steady "]").bind fun _ => .pure ?_
  simp only [placeless_expr, ← optionPlaceless_eq, Expr.placeless]

theorem subscript_steady (object : Expr) (pos : Pos) :
    B.Steady (subscript x object pos) (subscript y (placeless object) .start) :=
  .test (eatOperator_steady ":") (sliceRest_steady hx object none pos)
    (hx.bind fun first => .test (eatOperator_steady ":")
      (sliceRest_steady hx object (some first) pos)
      ((expectOperator_steady "]").bind fun _ => .pure rfl))

theorem suffixes_steady (rounds : Nat) (object : Expr) (pos : Pos) :
    B.Steady (suffixes x limit pos rounds object)
      (suffixes y limit .start rounds (placeless object)) := by
  induction rounds generalizing object with
  | zero => exact exhausted_inStep
  | succ rounds ih =>
      refine .test (eatOperator_steady ".") ?_ (.test (eatOperator_steady "[") ?_
        (.test (eatOperator_steady "(") ?_ (.pure rfl)))
      · exact identifier_steady.bind fun name => ih (.member object name pos)
      · exact (subscript_steady hx object pos).bind fun found => ih found
      · refine (enclosed_steady ")" hx limit).bind fun args => ?_
        rw [← exprsPlaceless_eq]
        exact ih (.call object args pos)

theorem suffixed_steady :
    B.Steady (suffixed embedded x limit) (suffixed (bare embedded) y limit) :=
  position_steady.bind fun pos => (primary_steady hx).bind fun object =>
    suffixes_steady hx limit object pos

theorem signed_steady (rounds : Nat) :
    B.Steady (signed embedded x limit rounds) (signed (bare embedded) y limit rounds) := by
  induction rounds with
  | zero => exact exhausted_inStep
  | succ rounds ih =>
      refine position_steady.bind fun _ =>
        (oneOperator_steady signOps fun _ => rfl).bind fun found => ?_
      cases found with
      | none => exact suffixed_steady hx
      | some op => exact ih.bind fun _ => .pure rfl

theorem power_steady (rounds : Nat) :
    B.Steady (power embedded x limit rounds) (power (bare embedded) y limit rounds) := by
  induction rounds with
  | zero => exact exhausted_inStep
  | succ rounds ih =>
      exact position_steady.bind fun _ => (signed_steady hx limit).bind fun _ =>
        .test (eatOperator_steady "**") (ih.bind fun _ => .pure rfl) (.pure rfl)

theorem product_steady :
    B.Steady (product embedded x limit) (product (bare embedded) y limit) :=
  leftAssoc_steady (oneOperator_steady _ fun _ => rfl) (power_steady hx limit)
    (fun _ _ _ _ => rfl) limit

theorem sum_steady : B.Steady (sum embedded x limit) (sum (bare embedded) y limit) :=
  leftAssoc_steady (oneOperator_steady _ fun _ => rfl) (product_steady hx) (fun _ _ _ _ => rfl)
    limit

omit hx

-- The links of a chain, with what they are linked to. A single `in` or `not in` is a membership
-- test.
def linked (left : Expr) (pos : Pos) : List (Comparison Expr) → Expr
  | [] => left
  | [⟨.isIn, right⟩] => .membership left right false pos
  | [⟨.notIn, right⟩] => .membership left right true pos
  | links => .compare left links pos

theorem placeless_linked (left : Expr) (pos : Pos) (links : List (Comparison Expr)) :
    placeless (linked left pos links) = linked (placeless left) .start (placeless links) := by
  match links with
  | [] => rfl
  | [⟨op, right⟩] => cases op <;> rfl
  | ⟨op, right⟩ :: second :: rest =>
      simp only [placeless_expr, linked, Expr.placeless, linksPlaceless_eq]
      cases op <;> rfl

theorem comparison_eq :
    comparison embedded x limit = (do
      let pos ← position
      let left ← sum embedded x limit
      let links ← whilst compareOp? (fun op => do
        return (⟨op, ← sum embedded x limit⟩ : Comparison Expr)) limit
      return linked left pos links) := by
  unfold comparison
  congr 1
  funext pos
  congr 1
  funext left
  congr 1
  funext links
  match links with
  | [] => rfl
  | [⟨op, right⟩] => cases op <;> rfl
  | ⟨op, right⟩ :: second :: rest => cases op <;> rfl

include hx

theorem comparison_steady :
    B.Steady (comparison embedded x limit) (comparison (bare embedded) y limit) := by
  rw [comparison_eq, comparison_eq]
  refine position_steady.bind fun pos => (sum_steady hx).bind fun left => ?_
  refine (whilst_inStep compareOp?_steady (fun op => ?_) limit).bind fun links =>
    .pure (placeless_linked left pos links).symm
  exact (sum_steady hx).bind fun _ => .pure rfl

theorem negation_steady (rounds : Nat) :
    B.Steady (negation embedded x limit rounds) (negation (bare embedded) y limit rounds) := by
  induction rounds with
  | zero => exact exhausted_inStep
  | succ rounds ih =>
      exact position_steady.bind fun _ => .test (eatKeyword_steady "not")
        (ih.bind fun _ => .pure rfl) (comparison_steady hx)

theorem conjunction_steady :
    B.Steady (conjunction embedded x limit) (conjunction (bare embedded) y limit) :=
  leftAssoc_steady (joinedBy_steady _ _) (negation_steady hx limit) (fun _ _ _ _ => rfl) limit

theorem disjunction_steady :
    B.Steady (disjunction embedded x limit) (disjunction (bare embedded) y limit) :=
  leftAssoc_steady (joinedBy_steady _ _) (conjunction_steady hx) (fun _ _ _ _ => rfl) limit

theorem conditional_steady :
    B.Steady (conditional embedded x limit) (conditional (bare embedded) y limit) :=
  position_steady.bind fun _ => (disjunction_steady hx).bind fun _ =>
    .test (eatKeyword_steady "if") ((disjunction_steady hx).bind fun _ =>
      (expectKeyword_steady "else").bind fun _ => hx.bind fun _ => .pure rfl)
        (.pure rfl)

end Levels

theorem expression_steady (embedded : Embedder) (limit : Nat) :
    B.Steady (expression embedded limit) (expression (bare embedded) limit) := by
  induction limit with
  | zero => exact exhausted_inStep
  | succ limit ih => exact conditional_steady ih

theorem iterationOf_placeless (e : Expr) : iterationOf (placeless e) = placeless (iterationOf e) := by
  cases e with
  | call callee args pos =>
      cases callee with
      | var name place =>
          by_cases hname : name = "range"
          · subst hname
            match args with
            | [] => rfl
            | [stop] => rfl
            | [start, stop] => rfl
            | [start, stop, step] => rfl
            | first :: second :: third :: fourth :: rest => rfl
          · simp only [placeless_expr, Expr.placeless]
            unfold iterationOf
            split <;> simp_all
            rfl
      | _ => rfl
  | _ => rfl

theorem endOfStatement_inStep : B.InStep B.tight B.loose Bare endOfStatement endOfStatement := by
  refine InStep.look (c := fun s => s.current.kind == .newline) ?_ ?_ ?_
  · intro s t hst
    rw [B.kind hst]
  · have hadvance : B.InStep (fun s t => B.tight s t ∧ (s.current.kind == .newline) = true)
        B.loose (fun _ _ => True) advance advance :=
      fun _ _ hst => B.feeds hst.1 (eq_of_beq hst.2)
    exact hadvance.bindWith fun _ _ _ => .pure rfl
  · refine InStep.mono ?_ And.left B.loose_of_tight
    exact (check_steady .dedent).bind fun _ => isAtEnd_steady.bind fun _ =>
      .ite (.pure rfl) (unexpected_inStep _)

theorem endOfBlock_steady : B.Steady endOfBlock endOfBlock :=
  .check rfl (advance_fresh.bind fun _ => .pure rfl)
    (.test isAtEnd_steady (unexpected_inStep _) (.pure rfl))

theorem dottedName_steady (limit : Nat) : B.Steady (dottedName limit) (dottedName limit) := by
  refine identifier_steady.bind fun first => (whilst_inStep
    (.test (eatOperator_steady ".") (.pure rfl) (.pure rfl)) (fun _ => identifier_steady)
      limit).bind fun more => .pure ?_
  rw [placeless_list_eq_self placeless_string]
  rfl

theorem otherName?_steady : B.Steady otherName? otherName? :=
  .test (eatKeyword_steady "as") (identifier_steady.bind fun _ => .pure rfl) (.pure rfl)

theorem importedName_steady : B.Steady importedName importedName := by
  refine identifier_steady.bind fun _ => otherName?_steady.bind fun _ => .pure ?_
  rw [placeless_option_eq_self placeless_string]
  rfl

theorem importStatement_steady (limit : Nat) :
    B.Steady (importStatement limit) (importStatement limit) := by
  refine position_steady.bind fun _ => .test (eatKeyword_steady "import") ?_ ?_
  · refine (dottedName_steady limit).bind fun _ => otherName?_steady.bind fun _ => .pure ?_
    rw [placeless_option_eq_self placeless_string]
    rfl
  · refine (expectKeyword_steady "from").bind fun _ => (dottedName_steady limit).bind
      fun _ => (expectKeyword_steady "import").bind fun _ => importedName_steady.bind
        fun first => ?_
    refine (whilst_inStep (.test (eatOperator_steady ",") (.pure rfl) (.pure rfl))
      (fun _ => importedName_steady) limit).bind fun _ => .pure ?_
    rw [placeless_list_eq_self fun _ => rfl]
    rfl

section Statements

variable {x y : Parser Expr} {u v : Parser Stmt} {limit : Nat}

theorem block_steady (hu : B.InStep B.tight B.loose Bare u v) :
    B.Steady (block u limit) (block v limit) := by
  refine (expectOperator_steady ":").bind fun _ => expect_newline.bindWith
    fun _ _ _ => skipNewlines_inStep.bind fun _ => ?_
  refine (expect_indent.mono id B.loose_of_tight).bindWith fun _ _ _ => ?_
  exact repeated_inStep endOfBlock_steady hu limit

theorem parameter_steady (hx : B.Steady x y) : B.Steady (parameter x) (parameter y) :=
  position_steady.bind fun _ => .test (eatOperator_steady "**")
    (identifier_steady.bind fun _ => .pure rfl) (.test (eatOperator_steady "*")
      (identifier_steady.bind fun _ => .pure rfl)
      (identifier_steady.bind fun _ => .test (eatOperator_steady "=")
        (hx.bind fun _ => .pure rfl) (.pure rfl)))

theorem baseClass_steady : B.Steady baseClass baseClass := by
  refine .test (eatOperator_steady "(") (.test (checkOperator_steady ")")
    ((InStep.pure rfl).bind ?close) (identifier_steady.bind fun _ =>
      (InStep.pure rfl).bind ?close)) (.pure rfl)
  exact fun _ => (expectOperator_steady ")").bind fun _ => .pure rfl

theorem announced_steady (keyword : String) : B.Steady (announced keyword) (announced keyword) :=
  position_steady.bind fun _ => .test (eatKeyword_steady keyword) (.pure rfl) (.pure rfl)

section Compound

variable (hx : B.Steady x y) (hblock : B.Steady (block u limit) (block v limit))

include hx hblock in
theorem functionDef_steady : B.Steady (functionDef x u limit) (functionDef y v limit) :=
  position_steady.bind fun _ => (expectKeyword_steady "def").bind fun _ =>
    identifier_steady.bind fun name => (expectOperator_steady "(").bind fun _ =>
      (enclosed_steady ")" (parameter_steady hx) limit).bind fun params => hblock.bind fun body =>
        .pure (congrArg (Stmt.functionDef name (placeless params) · .start)
          (stmtsPlaceless_eq body).symm)

include hblock in
theorem classDef_steady : B.Steady (classDef u limit) (classDef v limit) := by
  refine position_steady.bind fun _ => (expectKeyword_steady "class").bind fun _ =>
    identifier_steady.bind fun name => baseClass_steady.bind fun base => ?_
  rw [placeless_option_eq_self placeless_string base]
  exact hblock.bind fun body =>
    .pure (congrArg (Stmt.classDef name base · .start) (stmtsPlaceless_eq body).symm)

include hblock in
theorem optionalBlock_steady (keyword : String) :
    B.Steady (optionalBlock u limit keyword) (optionalBlock v limit keyword) :=
  .test (eatKeyword_steady keyword) (hblock.bind fun _ => .pure rfl) (.pure rfl)

include hx hblock in
theorem ifStatement_steady : B.Steady (ifStatement x u limit) (ifStatement y v limit) := by
  refine position_steady.bind fun _ => (expectKeyword_steady "if").bind fun _ =>
    hx.bind fun condition => hblock.bind fun body => (whilst_inStep (announced_steady "elif")
      (fun _ => hx.bind fun _ => ?_) limit).bind fun elifs =>
        (optionalBlock_steady hblock "else").bind fun orElse => .pure ?_
  · exact hblock.bind fun _ => .pure rfl
  · simp [placeless_stmt, placeless_expr, Stmt.placeless, stmtsPlaceless_eq, elifsPlaceless_eq,
      bodyPlaceless_eq]

include hx hblock in
theorem forStatement_steady : B.Steady (forStatement x u limit) (forStatement y v limit) := by
  refine position_steady.bind fun _ => (expectKeyword_steady "for").bind fun _ =>
    identifier_steady.bind fun target => (expectKeyword_steady "in").bind fun _ =>
      hx.bind fun iterable => hblock.bind fun body => .pure ?_
  simp [placeless_stmt, Stmt.placeless, stmtsPlaceless_eq, iterationOf_placeless]

include hx hblock in
theorem whileStatement_steady : B.Steady (whileStatement x u limit) (whileStatement y v limit) :=
  position_steady.bind fun _ => (expectKeyword_steady "while").bind fun _ =>
    hx.bind fun condition => hblock.bind fun body =>
      .pure (congrArg (Stmt.whileDo (placeless condition) · .start) (stmtsPlaceless_eq body).symm)

include hblock in
theorem handler?_steady : B.Steady (handler? u limit) (handler? v limit) := by
  refine (announced_steady "except").bind fun found => ?_
  cases found with
  | none => exact .pure rfl
  | some pos =>
      refine .check rfl (advance_fresh.bind fun _ => ?rest) ?rest
      refine otherName?_steady.bind fun name => ?_
      rw [placeless_option_eq_self placeless_string name]
      exact hblock.bind fun _ => .pure rfl

include hblock in
theorem tryStatement_steady : B.Steady (tryStatement u limit) (tryStatement v limit) := by
  refine position_steady.bind fun _ => (expectKeyword_steady "try").bind fun _ =>
    hblock.bind fun body => (handler?_steady hblock).bind fun handler =>
      (optionalBlock_steady hblock "finally").bind fun cleanup => ?_
  have hnone : ((placeless handler).isNone && (placeless cleanup).isNone) =
      (handler.isNone && cleanup.isNone) := by
    cases handler <;> cases cleanup <;> rfl
  rw [hnone]
  refine .ite (unexpected_inStep _) (.pure ?_)
  simp [placeless_stmt, Stmt.placeless, stmtsPlaceless_eq, handlerPlaceless_eq, bodyPlaceless_eq]

end Compound

section Simple

variable (hx : B.Steady x y)

include hx in
theorem returnStatement_inStep :
    B.InStep B.tight B.loose Bare (returnStatement x) (returnStatement y) := by
  refine position_steady.bind fun _ => (expectKeyword_steady "return").bind fun _ =>
    (check_steady .newline).bind fun _ => (check_steady .dedent).bind fun _ => isAtEnd_steady.bind
      fun _ => .ite ((InStep.pure rfl).bind ?close) (hx.bind fun _ =>
        (InStep.pure rfl).bind ?close)
  exact fun _ => endOfStatement_inStep.bind fun _ => .pure rfl

include hx in
theorem printStatement_inStep :
    B.InStep B.tight B.loose Bare (printStatement x limit) (printStatement y limit) :=
  position_steady.bind fun _ => (expectKeyword_steady "print").bind fun _ =>
    (expectOperator_steady "(").bind fun _ => (enclosed_steady ")" hx limit).bind
      fun _ => endOfStatement_inStep.bind fun _ => .pure rfl

include hx in
theorem simpleStatement_inStep :
    B.InStep B.tight B.loose Bare (simpleStatement x limit) (simpleStatement y limit) := by
  refine position_steady.bind fun pos => hx.bind fun first =>
    .current fun token other hkind hsame => ?_
  have hclose : ∀ found : Stmt, B.InStep B.tight B.loose Bare
      (do endOfStatement; return found) (do endOfStatement; return placeless found) :=
    fun _ => endOfStatement_inStep.bind fun _ => .pure rfl
  -- The runs are at an operator, which they can move over.
  have hfresh : ∀ lexeme, token.isOperator lexeme = true → ∀ {s t : TokenStream},
      B.tight s t ∧ s.current = token → B.fresh s t :=
    fun lexeme h _ _ hst => ⟨hst.1, hst.2 ▸ isPlain_of_is h rfl⟩
  rw [← isOperator_eq hkind hsame]
  by_cases hassign : token.isOperator "=" = true
  · rw [if_pos hassign, if_pos hassign]
    exact ((assignment_inStep hx limit first pos).mono (hfresh _ hassign) id).bind hclose
  · rw [if_neg hassign, if_neg hassign]
    cases hfound : augmentedOps.find? (fun entry => token.isOperator entry.1) with
    | some entry =>
        have hoperator := List.find?_some hfound
        exact ((augmented_inStep hx entry.2 first pos).mono (hfresh _ hoperator) id).bind hclose
    | none =>
        exact ((InStep.pure (R := B.tight) (a := Stmt.expr first pos) rfl).mono And.left id).bind
          hclose

theorem keywordStatement_inStep {token : Token} (htoken : token.isPlain = true) {node : Pos → Stmt}
    (hnode : ∀ pos, node .start = placeless (node pos)) :
    B.InStep (fun s t => B.tight s t ∧ s.current = token) B.loose Bare
      (keywordStatement node) (keywordStatement node) :=
  (advance_current htoken).bind fun _ => endOfStatement_inStep.bind fun _ => .pure (hnode _)

end Simple

-- Only a statement that is a single line may leave the runs at different numbers of line feeds.
theorem anyStatement_inStep (hx : B.Steady x y) (hu : B.InStep B.tight B.loose Bare u v) :
    B.InStep B.tight B.loose Bare (anyStatement x u limit) (anyStatement y v limit) := by
  have hblock : B.Steady (block u limit) (block v limit) := block_steady hu
  have hsimple : B.InStep B.tight B.loose Bare (simpleStatement x limit)
    (simpleStatement y limit) := simpleStatement_inStep hx
  have himport : ∀ p : Parser Stmt,
      p = (do let found ← importStatement limit; endOfStatement; return found) →
        B.InStep B.tight B.loose Bare p p := by
    rintro _ rfl
    exact (importStatement_steady limit).bind fun _ => endOfStatement_inStep.bind fun _ => .pure rfl
  refine .current fun a b hkind hsame => ?_
  obtain ⟨kind, lexeme, pos⟩ := a
  by_cases hkeyword : kind = .keyword
  · subst hkeyword
    obtain rfl := hsame (by simp)
    refine .ite (hsimple.mono And.left id) ?_
    dsimp only [placeless_token]
    split
    · exact (functionDef_steady hx hblock).mono And.left B.loose_of_tight
    · exact (classDef_steady hblock).mono And.left B.loose_of_tight
    · exact (ifStatement_steady hx hblock).mono And.left B.loose_of_tight
    · exact (forStatement_steady hx hblock).mono And.left B.loose_of_tight
    · exact (whileStatement_steady hx hblock).mono And.left B.loose_of_tight
    · exact (tryStatement_steady hblock).mono And.left B.loose_of_tight
    · exact (himport _ rfl).mono And.left id
    · exact (himport _ rfl).mono And.left id
    · exact (returnStatement_inStep hx).mono And.left id
    · intro s t hst
      have hbracket := B.next hst.1 (by simp [hst.2]) .operator (by decide) "("
      change Same B.blames _ _
        ((if (s.peek 1).any (·.is .operator "(") then printStatement x limit
          else simpleStatement x limit) s)
        ((if (t.peek 1).any (·.is .operator "(") then printStatement y limit
          else simpleStatement y limit) t)
      rw [← hbracket]
      exact InStep.ite (printStatement_inStep hx) hsimple hst.1
    · exact keywordStatement_inStep rfl fun _ => rfl
    · exact keywordStatement_inStep rfl fun _ => rfl
    · exact keywordStatement_inStep rfl fun _ => rfl
    · exact hsimple.mono And.left id
  · have hother : (kind != .keyword) = true := by simp [hkeyword]
    rw [if_pos hother, if_pos (hkind ▸ hother)]
    exact hsimple.mono And.left id

theorem statement_inStep (hx : B.Steady x y) (limit : Nat) :
    B.InStep B.tight B.loose Bare (Indented.statement x limit) (Indented.statement y limit) := by
  induction limit with
  | zero => exact exhausted_inStep
  | succ limit ih => exact anyStatement_inStep hx ih

theorem program_inStep (hx : B.Steady x y) (limit : Nat) :
    B.InStep B.loose B.tight Bare (program x limit) (program y limit) := by
  have hposition : B.InStep B.loose B.loose Bare position position :=
    fun _ _ hst => ⟨B.place hst, hst⟩
  refine hposition.bind fun _ => (repeated_inStep isAtEnd_steady (statement_inStep hx limit)
    limit).bind fun _ => .look (c := fun s => s.depth != 0) (fun hst => ?_)
      (refused_inStep _) ((InStep.pure rfl).mono And.left id)
  rw [B.depth hst]

end Statements

theorem expression_blind (embedded : Embedder) (limit : Nat) :
    Blind (expression embedded limit) := Alike.blind (expression_steady embedded limit)

theorem program_blind (embedded : Embedder) (limit rounds : Nat) :
    Blind (program (expression embedded limit) rounds) :=
  Alike.blind (program_inStep (expression_steady embedded limit) rounds)

end Diglot.Indented
