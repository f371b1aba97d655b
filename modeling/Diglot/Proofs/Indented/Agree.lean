import Diglot.Proofs.Indented.Shaped

namespace Diglot.Indented

open Diglot.Parser Setting

variable {tokens : List Token} {embedded other : Embedder} {S : Setting} {x y : Parser Expr}
  {u v : Parser Stmt} {n i j : Nat}

section Levels

variable {pos : Pos} {object : Expr}

theorem joinedBy_agree (keyword : String) (op : BoolOp) :
    S.Agree n onSome (fun _ => True) (joinedBy keyword op) (joinedBy keyword op) := by
  cases n with
  | zero => exact .none
  | succ n =>
      exact .eat (eatKeyword_agree keyword) (.pure rfl trivial) (.pure rfl trivial)

theorem compareOp?_agree : S.Agree n onSome (fun _ => True) compareOp? compareOp? := by
  cases n with
  | zero => exact .none
  | succ n =>
      refine .mark (oneOperator_agree compareOps) ?_ fun op _ => .pure rfl trivial
      refine .eat (eatKeyword_agree "in") (.pure rfl trivial) ?_
      refine .look (·.isKeyword "not") (fun _ => rfl) fun token _ => .peek fun next => ?_
      split
      · rename_i hnot
        have his : token.isKeyword "not" = true := (Bool.and_eq_true_iff.mp hnot).1
        refine .advance ?_ (.next advance_agree fun _ _ => .pure rfl trivial)
        rw [Token.kind_of_is his]
        nofun
      · exact .of (.pure rfl trivial)

theorem dictEntry_agree (hx : S.ReadsExpr n x y) :
    S.Agree n strict S.IsEntry (dictEntry x) (dictEntry y) := by
  cases n with
  | zero => exact .none
  | succ n =>
      exact .first hx fun key hkey => .next (expectOperator_agree ":") fun _ _ =>
        .next hx.fewer fun value hvalue => .pure rfl (isEntry_dictKey hkey hvalue)

theorem interpolated_agree (hembeds : Embeds tokens embedded other) {lexeme : String}
    (htoken : ⟨.interpolated, lexeme, pos⟩ ∈ tokens) :
    (setting tokens embedded).AgreeOn ⟨.interpolated, lexeme, pos⟩ (n + 1) strict
      (setting tokens embedded).IsExpr
      (do
        let _ ← advance
        match segments embedded lexeme.toList with
        | .ok parts => return Expr.interpolated parts pos
        | .error reason => throw ⟨.invalidInterpolation reason, pos⟩)
      (do
        let _ ← advance
        match segments other lexeme.toList with
        | .ok parts => return Expr.interpolated parts pos
        | .error reason => throw ⟨.invalidInterpolation reason, pos⟩) := by
  intro s hs hsize hcurrent
  have hsame : segments embedded lexeme.toList = segments other lexeme.toList :=
    hembeds.same ⟨.interpolated, lexeme, pos⟩ htoken rfl
  rw [← hsame]
  cases hparts : segments embedded lexeme.toList with
  | ok parts =>
      have hkind : (⟨.interpolated, lexeme, pos⟩ : Token).kind ≠ .eof := nofun
      obtain ⟨hjoined, hall⟩ := joined_of_segments hembeds.shaped hparts
      have hexpr : (setting tokens embedded).IsExpr (.interpolated parts pos) := by
        refine .node ⟨?_, by simp [Expr.words], by simp [Expr.literals], ?_, hall⟩
          (by simp [Expr.outer])
        · simp [Expr.isShaped, Expr.isFormed, Expr.isOf, setting, hjoined]
        · exact List.mem_map_of_mem htoken
      refine AgreeOn.advance hkind ?_ s hs hsize hcurrent
      exact .pure rfl hexpr
  | error reason =>
      refine ⟨rfl, fun heq => ?_, fun heq => ?_⟩
      · cases hadvance : advance s with
        | ok found =>
            rw [bind_of_ok hadvance] at heq
            cases heq
        | error failure =>
            rw [bind_run, hadvance] at heq
            cases heq
      · cases hadvance : advance s with
        | ok found =>
            rw [bind_of_ok hadvance] at heq
            cases heq
            refine ⟨s, .refl s, .own (.inl ⟨by rw [hcurrent], reason, ?_, ?_⟩)⟩
            · rw [hcurrent, hparts]
            · rw [hcurrent]
        | error failure =>
            rw [bind_run, hadvance] at heq
            cases heq
            exact ⟨s, .refl s, .unbalanced hadvance⟩

theorem primary_agree (hembeds : Embeds tokens embedded other)
    (hx : (setting tokens embedded).ReadsExpr n x y) (hi : n ≤ i) (hj : n ≤ j) :
    (setting tokens embedded).ReadsExpr (n + 1) (primary embedded x i) (primary other y j) := by
  refine .look (fun token => token) (fun _ => rfl) fun token htoken => ?_
  have hword := isWord_of_mem htoken
  have hpos := isPlace_of_mem htoken
  obtain ⟨kind, lexeme, pos⟩ := token
  have hleaf : ∀ {e : Expr}, e.isShaped .pythonScript = true →
      (e.words = [] ∧ e.literals = [] ∧ e.embedded = []) → e.outer = [] → e.pos = pos →
        (setting tokens embedded).IsExpr e := fun hshaped hplain houter hplace =>
    isExpr_of_parts hshaped hplain (hplace ▸ hpos) (by simp [houter])
  cases kind with
  | number => exact .advance nofun (.pure rfl (isExpr_number (.inr ⟨_, htoken, rfl⟩) hpos))
  | identifier => exact .advance nofun (.pure rfl (isExpr_var (hword (by simp)) hpos))
  | string => exact .advance nofun (.pure rfl (hleaf rfl ⟨rfl, rfl, rfl⟩ rfl rfl))
  | interpolated => exact interpolated_agree hembeds htoken
  | keyword =>
      dsimp only
      split
      · exact .advance nofun (.pure rfl (hleaf rfl ⟨rfl, rfl, rfl⟩ rfl rfl))
      · exact .advance nofun (.pure rfl (hleaf rfl ⟨rfl, rfl, rfl⟩ rfl rfl))
      · exact .advance nofun (.pure rfl (hleaf rfl ⟨rfl, rfl, rfl⟩ rfl rfl))
      · exact .advance nofun (.pure rfl (isExpr_var (hword (by simp)) hpos))
      · exact .of (unexpected_agree _)
  | operator =>
      dsimp only
      split
      · exact .advance nofun (.next hx fun _ hinner => .next (expectOperator_agree ")")
          fun _ _ => .pure rfl hinner)
      · exact .advance nofun (.next (enclosed_agree "]" hx hi hj) fun _ helements =>
          .pure rfl (isExpr_list hpos helements))
      · exact .advance nofun (.next (enclosed_agree "\x7d" (dictEntry_agree hx) hi hj)
          fun _ hentries => .pure rfl (isExpr_dict hpos hentries))
      · exact .of (unexpected_agree _)
  | template | indent | dedent | newline | eof => exact .of (unexpected_agree _)

variable [Suits S]

theorem sliceRest_agree (hx : S.ReadsExpr n x y) {start : Option Expr} (hpos : S.IsPlace pos)
    (hobject : S.IsExpr object) (hstart : ∀ e ∈ start, S.IsExpr e) :
    S.Agree n lax S.IsExpr (sliceRest x object start pos) (sliceRest y object start pos) := by
  refine .next (checkOperator_agree "]") fun _ _ => .next (checkOperator_agree ":")
    fun _ _ => .optionIte hx fun stop hstop => ?_
  have hclose : ∀ step : Option Expr, (∀ e ∈ step, S.IsExpr e) →
      S.Agree n lax S.IsExpr
        (do let _ ← expectOperator "]"; return Expr.slice object start stop step pos)
        (do let _ ← expectOperator "]"; return Expr.slice object start stop step pos) :=
    fun _ hstep => .next (expectOperator_agree "]") fun _ _ =>
      .pure rfl (isExpr_slice hpos hobject hstart hstop hstep)
  exact .test (eatOperator_agree ":") (.optionUnless (checkOperator_agree "]") hx hclose)
    (hclose none (by simp))

theorem subscript_agree (hx : S.ReadsExpr n x y) (hpos : S.IsPlace pos)
    (hobject : S.IsExpr object) :
    S.Agree n lax S.IsExpr (subscript x object pos) (subscript y object pos) := by
  refine .test (eatOperator_agree ":") (sliceRest_agree hx hpos hobject (by simp)) ?_
  refine .next hx fun first hfirst => .test (eatOperator_agree ":") ?_ ?_
  · exact sliceRest_agree hx hpos hobject (by simpa using hfirst)
  · exact .next (expectOperator_agree "]") fun _ _ =>
      .pure rfl (isExpr_index hpos hobject hfirst)

variable (hembeds : Embeds tokens embedded other) (hx : (setting tokens embedded).ReadsExpr n x y)
  (hi : n < i) (hj : n < j)

include hembeds hx hi hj

theorem suffixed_agree :
    (setting tokens embedded).ReadsExpr (n + 1) (suffixed embedded x i) (suffixed other y j) := by
  have hi := Nat.le_of_lt hi
  have hj := Nat.le_of_lt hj
  refine .next position_agree fun pos hpos => .first (primary_agree hembeds hx hi hj)
    fun object hobject => ?_
  refine .roundsFrom (fun hm _ _ ih object hobject => ?_) (Nat.le_refl n) hi hj hobject
  have hinner := hx.within (Nat.le_of_lt hm)
  refine .eat (eatOperator_agree ".") ?_ (.eat (eatOperator_agree "[") ?_
    (.eat (eatOperator_agree "(") ?_ (.pure rfl hobject)))
  · exact .next identifier_agree fun _ hname => ih _ (isExpr_member hname hpos hobject)
  · exact .next (subscript_agree hinner hpos hobject) fun _ hfound => ih _ hfound
  · exact .next (enclosed_agree ")" hinner (by omega) (by omega)) fun _ hargs =>
      ih _ (isExpr_call hpos hobject hargs)

theorem signed_agree :
    (setting tokens embedded).ReadsExpr (n + 1) (signed embedded x i i) (signed other y j j) := by
  refine .rounds (fun hm _ _ ih => ?_) (Nat.le_refl _) hi hj
  exact .next position_agree fun pos hpos => .mark (oneOperator_agree signOps)
    ((suffixed_agree hembeds hx hi hj).within hm) fun op _ => .next ih fun operand hoperand =>
      .pure rfl (isExpr_unary hpos op hoperand)

theorem power_agree :
    (setting tokens embedded).ReadsExpr (n + 1) (power embedded x i i) (power other y j j) := by
  refine .rounds (fun hm _ _ ih => ?_) (Nat.le_refl _) hi hj
  refine .next position_agree fun pos hpos =>
    .first ((signed_agree hembeds hx hi hj).within hm) fun base hbase =>
      .test (eatOperator_agree "**") ?_ (.pure rfl hbase)
  exact .next ih fun exponent hexponent => .pure rfl (isExpr_binary nofun hpos hbase hexponent)

theorem sum_agree :
    (setting tokens embedded).ReadsExpr (n + 1) (sum embedded x i) (sum other y j) := by
  have hproduct : (setting tokens embedded).ReadsExpr (n + 1) (product embedded x i)
      (product other y j) :=
    leftAssoc_agree (oneOperator_agree _) (power_agree hembeds hx hi hj)
      (fun _ _ _ _ _ => isExpr_binary nofun) hi hj
  exact leftAssoc_agree (oneOperator_agree _) hproduct
    (fun _ _ _ _ _ => isExpr_binary nofun) hi hj

theorem comparison_agree :
    (setting tokens embedded).ReadsExpr (n + 1) (comparison embedded x i)
      (comparison other y j) := by
  have hsum := sum_agree hembeds hx hi hj
  rw [comparison_eq, comparison_eq]
  refine .next position_agree fun pos hpos => .first hsum fun left hleft => ?_
  refine .next (whilst_agree (P := fun link => (setting tokens embedded).IsExpr link.right)
    compareOp?_agree (fun op _ => .next hsum.fewer fun right hright => .pure rfl hright)
    (Nat.le_of_lt hi) (Nat.le_of_lt hj)) fun links hlinks => ?_
  exact .pure rfl (isExpr_linked hpos hleft hlinks)

theorem negation_agree :
    (setting tokens embedded).ReadsExpr (n + 1) (negation embedded x i i)
      (negation other y j j) := by
  refine .rounds (fun hm _ _ ih => ?_) (Nat.le_refl _) hi hj
  exact .next position_agree fun pos hpos => .eat (eatKeyword_agree "not")
    (.next ih fun operand hoperand => .pure rfl (isExpr_unary hpos .not hoperand))
    ((comparison_agree hembeds hx hi hj).within hm)

theorem disjunction_agree :
    (setting tokens embedded).ReadsExpr (n + 1) (disjunction embedded x i)
      (disjunction other y j) := by
  have hconjunction : (setting tokens embedded).ReadsExpr (n + 1) (conjunction embedded x i)
      (conjunction other y j) :=
    leftAssoc_agree (joinedBy_agree _ _) (negation_agree hembeds hx hi hj)
      (fun _ _ _ _ _ => isExpr_logical) hi hj
  exact leftAssoc_agree (joinedBy_agree _ _) hconjunction (fun _ _ _ _ _ => isExpr_logical) hi hj

theorem conditional_agree :
    (setting tokens embedded).ReadsExpr (n + 1) (conditional embedded x i)
      (conditional other y j) := by
  have hoperand := disjunction_agree hembeds hx hi hj
  refine .next position_agree fun pos hpos => .first hoperand fun consequent hconsequent =>
    .test (eatKeyword_agree "if") ?_ (.pure rfl hconsequent)
  exact .next hoperand.fewer fun test htest => .next (expectKeyword_agree "else") fun _ _ =>
    .next hx fun alternate halternate =>
      .pure rfl (isExpr_conditional hpos htest hconsequent halternate)

end Levels

-- An expression reads a token. Its limit does not matter if there are at most so many tokens.
theorem expression_agree (hembeds : Embeds tokens embedded other) (hi : n ≤ i) (hj : n ≤ j) :
    (setting tokens embedded).ReadsExpr n (expression embedded i) (expression other j) := by
  refine .rounds (fun _ hi hj ih => ?_) (Nat.le_refl n) hi hj
  exact conditional_agree hembeds ih (Nat.lt_succ_of_le hi) (Nat.lt_succ_of_le hj)

section Statements

theorem endOfStatement_agree : S.Agree n lax (fun _ => True) endOfStatement endOfStatement := by
  refine .test (check_agree .newline)
    (.next advance_agree fun _ _ => .pure rfl trivial) ?_
  exact .next (check_agree .dedent) fun _ _ => .next isAtEnd_agree fun _ _ =>
    .ite (fun _ => .pure rfl trivial) fun _ => unexpected_agree _

theorem endOfBlock_agree : S.Agree n lax (fun _ => True) endOfBlock endOfBlock :=
  .test (check_agree .dedent) (.next advance_agree fun _ _ => .pure rfl trivial)
    (.test isAtEnd_agree (unexpected_agree _) (.pure rfl trivial))

theorem dottedName_agree (hi : n ≤ i) (hj : n ≤ j) :
    S.Agree n lax (fun _ => True) (dottedName i) (dottedName j) :=
  .next identifier_agree fun _ _ =>
    .next (whilst_agree (separator_agree ".") (fun _ _ => identifier_agree.loosen) hi hj)
      fun _ _ => .pure rfl trivial

theorem otherName?_agree :
    S.Agree n lax (fun name => ∀ text ∈ name, S.IsWord text) otherName? otherName? :=
  .test (eatKeyword_agree "as")
    (.next identifier_agree fun _ hname => .pure rfl (by simpa using hname))
    (.pure rfl (by simp))

theorem importedName_agree :
    S.Agree n lax (fun imported => ∀ text ∈ imported.words, S.IsWord text) importedName
      importedName :=
  .next identifier_agree fun _ hname => .next otherName?_agree fun _ hother =>
    .pure rfl (List.forall_mem_cons.mpr ⟨hname, by simpa using hother⟩)

theorem baseClass_agree :
    S.Agree n lax (fun base => ∀ text ∈ base, S.IsWord text) baseClass baseClass := by
  refine .test (eatOperator_agree "(") ?_ (.pure rfl (by simp))
  exact .optionUnless (checkOperator_agree ")") identifier_agree fun base hbase =>
    .next (expectOperator_agree ")") fun _ _ => .pure rfl hbase

theorem announced_agree (keyword : String) :
    S.Agree n onSome (fun found => ∀ pos ∈ found, S.IsPlace pos) (announced keyword)
      (announced keyword) := by
  cases n with
  | zero => exact .none
  | succ n =>
      exact .next position_agree fun pos hpos => .eat (eatKeyword_agree keyword)
        (.pure rfl (by simpa using hpos)) (.pure rfl (by simp))

theorem parameter_agree [Suits S] (hx : S.ReadsExpr n x y) :
    S.Agree n strict S.IsParameter (parameter x) (parameter y) := by
  cases n with
  | zero => exact .none
  | succ n =>
      refine .next position_agree fun pos hpos => .eat (eatOperator_agree "**") ?_
        (.eat (eatOperator_agree "*") ?_ (.first identifier_agree fun name hname =>
          .test (eatOperator_agree "=") ?_ ?_))
      · exact .next identifier_agree fun _ hname =>
          .pure rfl ⟨rfl, not_braced, hname, hpos, by simp⟩
      · exact .next identifier_agree fun _ hname => .pure rfl ⟨rfl, nofun, hname, hpos, by simp⟩
      · exact .next hx.fewer fun _ hdefault =>
          .pure rfl ⟨rfl, nofun, hname, hpos, by simpa using hdefault⟩
      · exact .pure rfl ⟨rfl, nofun, hname, hpos, by simp⟩

section Forms

variable {token : Token} (htoken : token ∈ S.tokens)

include htoken

theorem importStatement_agree (hi : n ≤ i) (hj : n ≤ j) :
    S.ReadsForm (n + 1) token (importStatement i) (importStatement j) := by
  have hpos : S.IsPlace token.pos := isPlace_of_mem htoken
  refine .position (.of (.eat (eatKeyword_agree "import") ?_ ?_))
  · exact .next (dottedName_agree hi hj) fun module _ => .next otherName?_agree fun _ hname =>
      .pure rfl ⟨isStmt_imports hpos (by simpa [ImportKind.words] using hname), rfl⟩
  · refine .first (expectKeyword_agree "from") fun _ _ => .next (dottedName_agree hi hj)
      fun module _ => .next (expectKeyword_agree "import") fun _ _ => .next importedName_agree
        fun first hfirst => ?_
    refine .next (whilst_agree (separator_agree ",") (fun _ _ => importedName_agree) hi hj)
      fun more hmore => .pure rfl ⟨isStmt_imports hpos ?_, rfl⟩
    exact List.forall_mem_flatMap.mpr (List.forall_mem_cons.mpr ⟨hfirst, hmore⟩)

theorem keywordStatement_agree [Suits S] {node : Pos → Stmt} (hkind : token.kind = .keyword)
    (hnode : node ∈ [Stmt.pass, .breaks, .continues]) :
    S.ReadsForm (n + 1) token (keywordStatement node) (keywordStatement node) := by
  refine .advance ?_ (.next endOfStatement_agree fun _ _ => .pure rfl ?_)
  · rw [hkind]
    nofun
  · simp only [List.mem_cons, List.not_mem_nil, or_false] at hnode
    have hpos := isPlace_of_mem htoken
    rcases hnode with rfl | rfl | rfl <;> exact ⟨isStmt_of_exprs rfl (by rw [Suits.dialect]; rfl)
      ⟨⟨rfl, rfl⟩, rfl, rfl⟩ hpos (by simp [Stmt.exprs]), rfl⟩

variable (hx : S.ReadsExpr (n + 1) x y)

include hx

theorem returnStatement_agree :
    S.ReadsForm (n + 1) token (returnStatement x) (returnStatement y) := by
  refine .position (.of (.first (expectKeyword_agree "return") fun _ _ =>
    .next (check_agree .newline) fun _ _ => .next (check_agree .dedent)
      fun _ _ => .next isAtEnd_agree fun _ _ => .optionIte hx.fewer fun value hvalue => ?_))
  exact .next endOfStatement_agree fun _ _ =>
    .pure rfl ⟨isStmt_returns (isPlace_of_mem htoken) hvalue, rfl⟩

variable (hi : n ≤ i) (hj : n ≤ j)

include hi hj

theorem printStatement_agree :
    S.ReadsForm (n + 1) token (printStatement x i) (printStatement y j) :=
  .position (.of (.first (expectKeyword_agree "print") fun _ _ =>
    .next (expectOperator_agree "(") fun _ _ => .next (enclosed_agree ")" hx.fewer hi hj)
      fun _ hargs => .next endOfStatement_agree fun _ _ =>
        .pure rfl ⟨isStmt_print (isPlace_of_mem htoken) hargs, rfl⟩))

theorem simpleStatement_agree [Suits S] :
    S.ReadsForm (n + 1) token (simpleStatement x i) (simpleStatement y j) := by
  have hpos : S.IsPlace token.pos := isPlace_of_mem htoken
  have hplace : ∀ e, S.IsExpr e → S.IsPlace e.pos :=
    fun _ h => h.self.place
  have hclose : ∀ found : Stmt,
      (S.IsStmt found ∧ found.pos = token.pos) →
        S.Agree n lax
          (fun stmt => S.IsStmt stmt ∧ stmt.pos = token.pos)
          (do endOfStatement; return found) (do endOfStatement; return found) :=
    fun found hfound => .next endOfStatement_agree fun _ _ => .pure rfl hfound
  refine .position (.of (.first hx fun first hfirst => .next current_agree fun next _ =>
    .ite (fun _ => .next (assignment_agree hplace hx.fewer hi hj hfirst
      fun targets value hne htargets hvalue => ⟨isStmt_assign hpos hne htargets hvalue, rfl⟩) hclose)
      fun _ => ?_))
  cases augmentedOps.find? (fun entry => next.isOperator entry.1) with
  | some entry =>
      exact .next (augmented_agree hplace hx.fewer entry.2 hfirst fun value hassignable hvalue =>
        ⟨isStmt_augAssign hpos not_braced hassignable hfirst hvalue, rfl⟩) hclose
  | none => exact .jump ⟨isStmt_expr hpos hfirst, rfl⟩ hclose

end Forms

section Blocks

variable (hu : S.ReadsStmt n u v) (hi : n ≤ i) (hj : n ≤ j)

include hu hi hj

theorem block_agree : S.Agree n lax S.IsBody (block u i) (block v j) :=
  .next (expectOperator_agree ":") fun _ _ => .next (expect_agree .newline nofun none)
    fun _ _ => .next skipNewlines_agree fun _ _ => .next (expect_agree .indent nofun none)
      fun _ _ => repeated_agree skipNewlines_agree endOfBlock_agree hu hi hj

theorem optionalBlock_agree (keyword : String) :
    S.Agree n lax (fun found => ∀ body ∈ found, S.IsBody body)
      (optionalBlock u i keyword) (optionalBlock v j keyword) :=
  .test (eatKeyword_agree keyword)
    (.next (block_agree hu hi hj) fun _ hbody => .pure rfl (by simpa using hbody))
    (.pure rfl (by simp))

theorem handler?_agree :
    S.Agree n lax (fun found => ∀ handler ∈ found, S.IsHandler handler)
      (handler? u i) (handler? v j) := by
  refine .next (announced_agree "except") fun found hfound => ?_
  cases found with
  | none => exact .pure rfl (by simp)
  | some pos =>
      refine .test (check_agree .identifier) (.next advance_agree fun _ _ => ?_) ?_
      all_goals
        exact .next otherName?_agree fun name hname => .next (block_agree hu hi hj) fun body hbody =>
          .pure rfl (by simpa using ⟨hname, hbody, hfound pos rfl⟩)

variable {token : Token} (htoken : token ∈ S.tokens)

include htoken

theorem classDef_agree : S.ReadsForm (n + 1) token (classDef u i) (classDef v j) :=
  .position (.of (.first (expectKeyword_agree "class") fun _ _ =>
    .next identifier_agree fun _ hname => .next baseClass_agree fun _ hbase =>
      .next (block_agree hu hi hj) fun _ hbody =>
        .pure rfl ⟨isStmt_classDef (isPlace_of_mem htoken) hname hbase hbody, rfl⟩))

theorem tryStatement_agree [Suits S] :
    S.ReadsForm (n + 1) token (tryStatement u i) (tryStatement v j) :=
  .position (.of (.first (expectKeyword_agree "try") fun _ _ =>
    .next (block_agree hu hi hj) fun _ hbody => .next (handler?_agree hu hi hj) fun _ hhandler =>
      .next (optionalBlock_agree hu hi hj "finally") fun _ hcleanup =>
        .ite (fun _ => unexpected_agree _) fun hsome => .pure rfl
          ⟨isStmt_tryCatch (isPlace_of_mem htoken) hbody hhandler hcleanup hsome, rfl⟩))

variable (hx : S.ReadsExpr (n + 1) x y)

include hx

theorem functionDef_agree [Suits S] :
    S.ReadsForm (n + 1) token (functionDef x u i) (functionDef y v j) :=
  .position (.of (.first (expectKeyword_agree "def") fun _ _ =>
    .next identifier_agree fun _ hname => .next (expectOperator_agree "(") fun _ _ =>
      .next (enclosed_agree ")" (parameter_agree hx.fewer) hi hj) fun _ hparams =>
        .next (block_agree hu hi hj) fun _ hbody =>
          .pure rfl ⟨isStmt_functionDef (isPlace_of_mem htoken) hname hparams hbody, rfl⟩))

theorem ifStatement_agree [Suits S] :
    S.ReadsForm (n + 1) token (ifStatement x u i) (ifStatement y v j) := by
  have hblock := block_agree hu hi hj
  refine .position (.of (.first (expectKeyword_agree "if") fun _ _ =>
    .next hx.fewer fun condition hcondition => .next hblock fun body hbody => ?_))
  refine .next (whilst_agree (P := S.IsBranch) (announced_agree "elif")
    (fun pos hpos => ?_) hi hj) fun elifs helifs =>
      .next (optionalBlock_agree hu hi hj "else") fun orElse horElse => .pure rfl
        ⟨isStmt_ifElse (isPlace_of_mem htoken) hcondition hbody helifs horElse, rfl⟩
  exact .next hx.fewer fun condition hcondition => .next hblock fun body hbody =>
    .pure rfl ⟨hcondition, hbody, hpos pos rfl⟩

theorem forStatement_agree : S.ReadsForm (n + 1) token (forStatement x u i) (forStatement y v j) :=
  .position (.of (.first (expectKeyword_agree "for") fun _ _ =>
    .next identifier_agree fun _ htarget => .next (expectKeyword_agree "in") fun _ _ =>
      .next hx.fewer fun _ hiterable => .next (block_agree hu hi hj) fun _ hbody => .pure rfl
        ⟨isStmt_forIn (isPlace_of_mem htoken) htarget (iterationOf_isExpr hiterable) hbody, rfl⟩))

theorem whileStatement_agree :
    S.ReadsForm (n + 1) token (whileStatement x u i) (whileStatement y v j) :=
  .position (.of (.first (expectKeyword_agree "while") fun _ _ =>
    .next hx.fewer fun _ hcondition => .next (block_agree hu hi hj) fun _ hbody =>
      .pure rfl ⟨isStmt_whileDo (isPlace_of_mem htoken) hcondition hbody, rfl⟩))

omit htoken

theorem anyStatement_agree [Suits S] :
    S.ReadsStmt (n + 1) (anyStatement x u i) (anyStatement y v j) := by
  refine .look fun token htoken => ?_
  have hsimple := ReadsOn.of_form (simpleStatement_agree htoken hx hi hj)
  have himport : S.ReadsForm (n + 1) token
      (do let found ← importStatement i; endOfStatement; return found)
      (do let found ← importStatement j; endOfStatement; return found) :=
    .first (importStatement_agree htoken hi hj) fun _ hfound => .next endOfStatement_agree fun _ _ =>
      .pure rfl hfound
  by_cases hkind : (token.kind != .keyword) = true
  · rw [if_pos hkind, if_pos hkind]
    exact hsimple
  · rw [if_neg hkind, if_neg hkind]
    have hkeyword : token.kind = .keyword := by simpa using hkind
    split
    · exact .of_form (functionDef_agree hu hi hj htoken hx)
    · exact .of_form (classDef_agree hu hi hj htoken)
    · exact .of_form (ifStatement_agree hu hi hj htoken hx)
    · exact .of_form (forStatement_agree hu hi hj htoken hx)
    · exact .of_form (whileStatement_agree hu hi hj htoken hx)
    · exact .of_form (tryStatement_agree hu hi hj htoken)
    · exact .of_form himport
    · exact .of_form himport
    · exact .of_form (returnStatement_agree htoken hx)
    · refine .of_form (.peek fun next => ?_)
      split
      · exact printStatement_agree htoken hx hi hj
      · exact simpleStatement_agree htoken hx hi hj
    · exact .of_form (keywordStatement_agree htoken hkeyword (by simp))
    · exact .of_form (keywordStatement_agree htoken hkeyword (by simp))
    · exact .of_form (keywordStatement_agree htoken hkeyword (by simp))
    · exact hsimple

end Blocks

-- A statement reads a token. Its limit does not matter if there are at most so many tokens.
theorem statement_agree [Suits S] (hx : S.ReadsExpr n x y) (hi : n ≤ i) (hj : n ≤ j) :
    S.ReadsStmt n (statement x i) (statement y j) := by
  induction n generalizing i j with
  | zero => exact .none
  | succ n ih =>
      obtain ⟨i, rfl⟩ := Nat.exists_eq_add_one.mpr (Nat.zero_lt_of_lt hi)
      obtain ⟨j, rfl⟩ := Nat.exists_eq_add_one.mpr (Nat.zero_lt_of_lt hj)
      exact anyStatement_agree
        (ih hx.fewer (Nat.le_of_succ_le_succ hi) (Nat.le_of_succ_le_succ hj))
        (Nat.le_of_lt hi) (Nat.le_of_lt hj) hx

theorem program_agree (hx : (setting tokens embedded).ReadsExpr n x y) (hi : n ≤ i) (hj : n ≤ j) :
    (setting tokens embedded).Agree n lax (setting tokens embedded).IsModule (program x i)
      (program y j) := by
  refine .next position_agree fun pos hpos s hs hsize => ?_
  have hstatement := statement_agree hx hi hj
  have hbody := repeated_agree skipNewlines_agree isAtEnd_agree hstatement hi hj
  refine Meets.bind hs (hbody s hs hsize) fun body t hfound _ _ _ hmade => ?_
  change Meets _ _ _ t ((if t.depth != 0 then refused _ else pure ⟨body, pos⟩ : Parser Module) t)
    ((if t.depth != 0 then refused _ else pure ⟨body, pos⟩ : Parser Module) t)
  by_cases hdepth : (t.depth != 0) = true
  · rw [if_pos hdepth]
    refine ⟨rfl, nofun, fun heq => ?_⟩
    cases heq
    -- The blocks are looked at only where all statements are read.
    have hend := isAtEnd_of_repeated skipNewlines_agree hstatement.agree hi hs hsize hfound
    exact ⟨t, .refl t, .own (.inr ⟨hend, by simpa using hdepth, rfl⟩)⟩
  · rw [if_neg hdepth]
    refine ⟨rfl, fun heq => ?_, nofun⟩
    cases heq
    exact ⟨.refl t, Nat.le_refl _, hpos, hmade⟩

end Statements

end Diglot.Indented
