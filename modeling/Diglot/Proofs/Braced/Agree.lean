import Diglot.Proofs.Braced.Shaped

namespace Diglot.Braced

open Diglot.Parser Setting

variable {S : Setting} {x y : Parser Expr} {u v : Parser Stmt} {n i j : Nat}

section Levels

theorem propertyName_agree : S.Agree n strict S.IsWord propertyName propertyName := by
  cases n with
  | zero => exact .none
  | succ n =>
      refine .look (fun token => token) (fun _ => rfl) fun token htoken => ?_
      split
      · rename_i hname
        have hkind := Bool.or_eq_true_iff.mp hname
        refine .advance ?_ (.pure rfl (isWord_of_mem htoken ?_))
        · intro heof
          simp [heof] at hname
        · rcases hkind with hkind | hkind <;> simp [eq_of_beq hkind]
      · exact .of (unexpected_agree _)

theorem propertyValue_agree (hx : S.ReadsExpr n x y) {key : Token} (hkey : key ∈ S.tokens) :
    S.Agree n lax S.IsExpr (propertyValue x key) (propertyValue y key) := by
  refine .test (eatOperator_agree ":") hx.loosen (.ite (fun hkind => .pure rfl ?_) fun _ =>
    unexpected_agree _)
  exact isExpr_var (isWord_of_mem hkey (by simp [eq_of_beq hkind])) (isPlace_of_mem hkey)

theorem property_agree (hx : S.ReadsExpr n x y) :
    S.Agree n strict S.IsEntry (property x) (property y) := by
  cases n with
  | zero => exact .none
  | succ n =>
      refine .look (fun token => token) (fun _ => rfl) fun token htoken => ?_
      have hvalue := propertyValue_agree hx.fewer htoken
      have hcomputed : S.AgreeOn token (n + 1) strict S.IsEntry
          (do
            if ← eatOperator "[" then
              let key ← x
              let _ ← expectOperator "]"
              return (⟨.computed key, ← propertyValue x token⟩ : DictEntry Expr)
            else unexpected "property name")
          (do
            if ← eatOperator "[" then
              let key ← y
              let _ ← expectOperator "]"
              return (⟨.computed key, ← propertyValue y token⟩ : DictEntry Expr)
            else unexpected "property name") :=
        .of (.eat (eatOperator_agree "[") (.next hx.fewer fun key hkey =>
          .next (expectOperator_agree "]") fun _ _ => .next hvalue fun value hvalue => .pure rfl
            ⟨by simp [DictKey.number?], by simp [DictEntry.exprs, hkey, hvalue]⟩)
          (unexpected_agree _))
      obtain ⟨kind, lexeme, pos⟩ := token
      cases kind with
      | identifier | keyword | string =>
          exact .advance (by simp) (.next hvalue fun value hvalue => .pure rfl
            ⟨by simp [DictKey.number?], by simp [DictEntry.exprs, hvalue]⟩)
      | number =>
          have hnumber : S.IsLiteral (.number, lexeme) := .inr ⟨_, htoken, rfl⟩
          exact .advance (by simp) (.next hvalue fun value hvalue => .pure rfl
            ⟨by simpa [DictKey.number?] using hnumber, by simp [DictEntry.exprs, hvalue]⟩)
      | interpolated | template | operator | indent | dedent | newline | eof => exact hcomputed

section Tables

variable (hi : n < i) (hj : n < j)

include hi hj

-- Operators of a table that has none for floors.
theorem arithmetic_agree {table : List (String × BinaryOp)}
    (htable : BinaryOp.floorDivide ∉ table.map (·.2)) (hx : S.ReadsExpr (n + 1) x y) :
    S.ReadsExpr (n + 1) (leftAssoc (oneOperator table) x .binary i)
      (leftAssoc (oneOperator table) y .binary j) :=
  leftAssoc_agree (oneOperator_agree table) hx
    (fun op _ _ _ hop => isExpr_binary fun _ h => htable (h ▸ hop op rfl)) hi hj

theorem compared_agree {table : List (String × CompareOp)}
    (htable : ∀ op ∈ table.map (·.2), op.isOrder = true) (hx : S.ReadsExpr (n + 1) x y) :
    S.ReadsExpr (n + 1) (leftAssoc (oneOperator table) x comparison i)
      (leftAssoc (oneOperator table) y comparison j) :=
  leftAssoc_agree (oneOperator_agree table) hx
    (fun op _ _ _ hop => isExpr_comparison (htable op (hop op rfl))) hi hj

theorem joined_agree {table : List (String × BoolOp)} (hx : S.ReadsExpr (n + 1) x y) :
    S.ReadsExpr (n + 1) (leftAssoc (oneOperator table) x .logical i)
      (leftAssoc (oneOperator table) y .logical j) :=
  leftAssoc_agree (oneOperator_agree table) hx (fun _ _ _ _ _ => isExpr_logical) hi hj

end Tables

variable [Suits S]

theorem refused_agree {α : Type} {least : α → Nat} {P : α → Prop} {token : Token}
    {explanation : String} (h : Refused token explanation) :
    S.AgreeOn token n least P (refused explanation) (refused explanation) := by
  rintro s _ _ rfl
  refine ⟨rfl, nofun, fun heq => ?_⟩
  cases heq
  exact ⟨s, .refl s, .own (Suits.own s explanation h)⟩

theorem construction_agree (hx : S.ReadsExpr n x y) (hi : n ≤ i) (hj : n ≤ j) :
    S.ReadsExpr (n + 1) (construction x i) (construction y j) := by
  refine .next position_agree fun pos hpos => .first (expectKeyword_agree "new")
    fun _ _ => .next identifier_agree fun name hname => ?_
  refine .next (whilst_agree (separator_agree ".") (fun _ _ => propertyName_agree.loosen) hi hj)
    fun path hpath => ?_
  have hcallee := isExpr_path hpath hpos (isExpr_var hname hpos)
  refine .test (eatOperator_agree "(") (.next (enclosed_agree ")" hx hi hj) fun args hargs =>
    .pure rfl ?_) (.pure rfl ?_)
  · exact isExpr_construct hpos hcallee hargs
  · exact isExpr_construct hpos hcallee (by simp)

theorem primary_agree (hx : S.ReadsExpr n x y) (hi : n ≤ i) (hj : n ≤ j) :
    S.ReadsExpr (n + 1) (primary x i) (primary y j) := by
  refine .look (fun token => token) (fun _ => rfl) fun token htoken => ?_
  have hword := isWord_of_mem htoken
  have hpos := isPlace_of_mem htoken
  obtain ⟨kind, lexeme, pos⟩ := token
  have hleaf : ∀ {e : Expr}, e.isShaped .javaScript = true →
      (e.words = [] ∧ e.literals = [] ∧ e.embedded = []) → e.outer = [] → e.pos = pos →
        S.IsExpr e := fun hshaped hplain houter hplace =>
    isExpr_of_parts (Suits.dialect (S := S) ▸ hshaped) hplain (hplace ▸ hpos) (by simp [houter])
  cases kind with
  | number => exact .advance (by simp) (.pure rfl (isExpr_number (.inr ⟨_, htoken, rfl⟩) hpos))
  | identifier => exact .advance (by simp) (.pure rfl (isExpr_var (hword (by simp)) hpos))
  | string => exact .advance (by simp) (.pure rfl (hleaf rfl ⟨rfl, rfl, rfl⟩ rfl rfl))
  | template =>
      have hraw : S.IsLiteral (.template, lexeme) := .inr ⟨_, htoken, rfl⟩
      exact .advance (by simp) (.pure rfl (.node ⟨by rw [Suits.dialect]; rfl, by simp [Expr.words],
        by simpa [Expr.literals] using hraw, hpos, by simp [Expr.embedded]⟩
        (by simp [Expr.outer, Expr.children])))
  | keyword =>
      dsimp only
      split
      · exact .advance (by simp) (.pure rfl (hleaf rfl ⟨rfl, rfl, rfl⟩ rfl rfl))
      · exact .advance (by simp) (.pure rfl (hleaf rfl ⟨rfl, rfl, rfl⟩ rfl rfl))
      · exact .advance (by simp) (.pure rfl (hleaf rfl ⟨rfl, rfl, rfl⟩ rfl rfl))
      · exact .advance (by simp) (.pure rfl (hleaf rfl ⟨rfl, rfl, rfl⟩ rfl rfl))
      · exact .advance (by simp) (.pure rfl (hleaf rfl ⟨rfl, rfl, rfl⟩ rfl rfl))
      · exact .advance (by simp) (.pure rfl (hleaf rfl ⟨rfl, rfl, rfl⟩ rfl rfl))
      · exact .of (construction_agree hx hi hj)
      · exact .of (unexpected_agree _)
  | operator =>
      dsimp only
      split
      · exact .advance (by simp) (.next hx fun _ hinner => .next (expectOperator_agree ")")
          fun _ _ => .pure rfl hinner)
      · exact .advance (by simp) (.next (enclosed_agree "]" hx hi hj) fun _ helements =>
          .pure rfl (isExpr_list hpos helements))
      · exact .advance (by simp) (.next (enclosed_agree "\x7d" (property_agree hx) hi hj)
          fun _ hentries => .pure rfl (isExpr_dict hpos hentries))
      · exact .of (unexpected_agree _)
  | interpolated | indent | dedent | newline | eof => exact .of (unexpected_agree _)

variable (hx : S.ReadsExpr n x y) (hi : n < i) (hj : n < j)

include hx hi hj

theorem suffixed_agree : S.ReadsExpr (n + 1) (suffixed x i) (suffixed y j) := by
  have hi := Nat.le_of_lt hi
  have hj := Nat.le_of_lt hj
  refine .next position_agree fun pos hpos => .first (primary_agree hx hi hj)
    fun object hobject => ?_
  refine .roundsFrom (fun hm _ _ ih object hobject => ?_) (Nat.le_refl n) hi hj hobject
  have hinner := hx.within (Nat.le_of_lt hm)
  refine .eat (eatOperator_agree ".") ?_ (.eat (eatOperator_agree "[") ?_
    (.eat (eatOperator_agree "(") ?_ (.pure rfl hobject)))
  · exact .next propertyName_agree fun _ hname => ih _ (isExpr_member hname hpos hobject)
  · exact .next hinner fun _ hindex => .next (expectOperator_agree "]") fun _ _ =>
      ih _ (isExpr_index hpos hobject hindex)
  · exact .next (enclosed_agree ")" hinner (by omega) (by omega)) fun _ hargs =>
      ih _ (isExpr_call hpos hobject hargs)

theorem unary_agree : S.ReadsExpr (n + 1) (unary x i i) (unary y j j) := by
  refine .rounds (fun hm _ _ ih => ?_) (Nat.le_refl _) hi hj
  exact .next position_agree fun pos hpos => .mark (oneOperator_agree unaryOps)
    ((suffixed_agree hx hi hj).within hm) fun op _ => .next ih fun operand hoperand =>
      .pure rfl (isExpr_unary hpos op hoperand)

theorem power_agree : S.ReadsExpr (n + 1) (power x i i) (power y j j) := by
  refine .rounds (fun hm _ _ ih => ?_) (Nat.le_refl _) hi hj
  refine .next position_agree fun pos hpos => .first ((unary_agree hx hi hj).within hm)
    fun base hbase => .test (eatOperator_agree "**") ?_ (.pure rfl hbase)
  exact .next ih fun exponent hexponent =>
    .pure rfl (isExpr_binary (fun _ => by decide) hpos hbase hexponent)

theorem disjunction_agree : S.ReadsExpr (n + 1) (disjunction x i) (disjunction y j) := by
  have hproduct : S.ReadsExpr (n + 1) (product x i) (product y j) :=
    arithmetic_agree hi hj (by decide) (power_agree hx hi hj)
  have hsum : S.ReadsExpr (n + 1) (sum x i) (sum y j) :=
    arithmetic_agree hi hj (by decide) hproduct
  have hrelation : S.ReadsExpr (n + 1) (relation x i) (relation y j) :=
    compared_agree hi hj (by decide) hsum
  have hequality : S.ReadsExpr (n + 1) (equality x i) (equality y j) :=
    compared_agree hi hj (by decide) hrelation
  exact joined_agree hi hj (joined_agree hi hj hequality)

theorem conditional_agree : S.ReadsExpr (n + 1) (conditional x i) (conditional y j) := by
  refine .next position_agree fun pos hpos => .first (disjunction_agree hx hi hj)
    fun test htest => .test (eatOperator_agree "?") ?_ (.pure rfl htest)
  exact .next hx fun _ hconsequent => .next (expectOperator_agree ":") fun _ _ =>
    .next hx fun _ halternate => .pure rfl (isExpr_conditional hpos htest hconsequent halternate)

end Levels

-- An expression reads a token. Its limit does not matter if there are at most so many tokens.
theorem expression_agree [Suits S] (hi : n ≤ i) (hj : n ≤ j) :
    S.ReadsExpr n (expression i) (expression j) := by
  refine .rounds (fun _ hi hj ih => ?_) (Nat.le_refl n) hi hj
  exact conditional_agree ih (Nat.lt_succ_of_le hi) (Nat.lt_succ_of_le hj)

section Statements

theorem endOfStatement_agree : S.Agree n lax (fun _ => True) endOfStatement endOfStatement :=
  .next (eatOperator_agree ";") fun _ _ => .pure rfl trivial

theorem endOfBlock_agree : S.Agree n lax (fun _ => True) endOfBlock endOfBlock :=
  .test (eatOperator_agree "\x7d") (.pure rfl trivial)
    (.test isAtEnd_agree (unexpected_agree _) (.pure rfl trivial))

theorem importedName_agree :
    S.Agree n strict (fun imported => ∀ text ∈ imported.words,
      S.IsWord text) importedName importedName := by
  cases n with
  | zero => exact .none
  | succ n =>
      refine .first identifier_agree fun name hname => .test (eatKeyword_agree "as")
        (.next identifier_agree fun other hother => .pure rfl ?_) (.pure rfl ?_)
      · simp [ImportedName.words, hname, hother]
      · simpa [ImportedName.words] using hname

theorem importKind_agree (hi : n ≤ i) (hj : n ≤ j) :
    S.Agree n lax (fun kind => ∀ text ∈ kind.words, S.IsWord text)
      (importKind i) (importKind j) := by
  have hwhole : S.Agree n lax
      (fun kind => ∀ text ∈ ImportKind.words kind, S.IsWord text)
      (do return .whole (some (← identifier))) (do return .whole (some (← identifier))) :=
    .next identifier_agree fun name hname =>
      .pure rfl (by simpa [ImportKind.words] using hname)
  refine .test (eatOperator_agree "\x7b") ?_ (.test (eatOperator_agree "*") ?_ hwhole)
  · exact .next (enclosed_agree "\x7d" importedName_agree hi hj) fun _ hnames =>
      .pure rfl (List.forall_mem_flatMap.mpr hnames)
  · exact .next (expectKeyword_agree "as") fun _ _ => hwhole

theorem parameter_agree (hx : S.ReadsExpr n x y) :
    S.Agree n strict S.IsParameter (parameter x) (parameter y) := by
  cases n with
  | zero => exact .none
  | succ n =>
      refine .next position_agree fun pos hpos => .eat (eatOperator_agree "...") ?_
        (.first identifier_agree fun name hname => .test (eatOperator_agree "=") ?_ ?_)
      · exact .next identifier_agree fun _ hname =>
          .pure rfl ⟨rfl, by simp, hname, hpos, by simp⟩
      · exact .next hx.fewer fun _ hdefault =>
          .pure rfl ⟨rfl, by simp, hname, hpos, by simpa using hdefault⟩
      · exact .pure rfl ⟨rfl, by simp, hname, hpos, by simp⟩

-- What is exported starts behind the words that export it.
theorem export_agree {token : Token} (hkind : token.kind = .keyword)
    (hu : S.ReadsStmt n u v) :
    S.ReadsOn (n + 1) token
      (do
        let _ ← advance
        if (← current).is .identifier "default" then
          let _ ← advance
        u)
      (do
        let _ ← advance
        if (← current).is .identifier "default" then
          let _ ← advance
        v) := by
  rintro s hs hsize rfl
  refine Meets.bind hs (advance_meets hs (by rw [hkind]; nofun)) fun _ t _ hreach ht hless _ => ?_
  have hsize : t.size ≤ n := Nat.le_of_succ_le_succ (Nat.le_trans hless hsize)
  have hrest : S.Meets strict
      (fun stmt r => S.IsStmt stmt ∧ Marked t stmt r) t
      ((if t.current.is .identifier "default" then (do let _ ← advance; u) else u : Parser Stmt) t)
      ((if t.current.is .identifier "default" then (do let _ ← advance; v) else v : Parser Stmt) t) := by
    split
    · exact (hu.behind advance_agree).meets ht hsize
    · exact hu.meets ht hsize
  exact hrest.mono (fun _ => Nat.sub_le _ _) fun _ _ _ _ hstmt =>
    ⟨hstmt.1, hstmt.2.trans (sublist_of_reaches hs hreach)⟩

section Forms

variable {token : Token} (htoken : token ∈ S.tokens)

include htoken

theorem importStatement_agree (hi : n ≤ i) (hj : n ≤ j) :
    S.ReadsForm (n + 1) token (importStatement i) (importStatement j) := by
  have hpos : S.IsPlace token.pos := isPlace_of_mem htoken
  refine .position (.of (.first (expectKeyword_agree "import") fun _ _ =>
    .test (check_agree .string) ?_ ?_))
  · exact .next advance_agree fun module _ => .next endOfStatement_agree fun _ _ =>
      .pure rfl ⟨isStmt_imports hpos (by simp [ImportKind.words]), rfl⟩
  · exact .next (importKind_agree hi hj) fun kind hkind => .next (expectKeyword_agree "from")
      fun _ _ => .next (expect_agree .string nofun none) fun module _ =>
        .next endOfStatement_agree fun _ _ => .pure rfl ⟨isStmt_imports hpos hkind, rfl⟩

theorem declare_agree [Suits S] (hx : S.ReadsExpr (n + 1) x y) (declaration : Declaration) :
    S.ReadsForm (n + 1) token (declare x declaration) (declare y declaration) := by
  have hpos : S.IsPlace token.pos := isPlace_of_mem htoken
  refine .position (.of (.next advance_agree fun _ _ => .next position_agree
    fun namePos hnamePos => .first identifier_agree fun name hname =>
      .option (eatOperator_agree "=") hx.fewer fun value hvalue => ?_))
  refine .look (·.isOperator ",") (fun _ => rfl) fun next _ => ?_
  split
  · rename_i hcomma
    exact refused_agree (.several hcomma)
  · exact .of (.pure rfl ⟨isStmt_variable hname _ hnamePos hpos hvalue, rfl⟩)

theorem returnStatement_agree (hx : S.ReadsExpr (n + 1) x y) :
    S.ReadsForm (n + 1) token (returnStatement x) (returnStatement y) := by
  have hpos : S.IsPlace token.pos := isPlace_of_mem htoken
  refine .position (.of (.first (expectKeyword_agree "return") fun _ _ =>
    .next (checkOperator_agree ";") fun _ _ => .next (checkOperator_agree "\x7d")
      fun _ _ => .next isAtEnd_agree fun _ _ => .optionIte hx.fewer fun value hvalue => ?_))
  exact .next endOfStatement_agree fun _ _ => .pure rfl ⟨isStmt_returns hpos hvalue, rfl⟩

theorem keywordStatement_agree [Suits S] {node : Pos → Stmt} (hkind : token.kind = .keyword)
    (hnode : node ∈ [Stmt.breaks, .continues]) :
    S.ReadsForm (n + 1) token (keywordStatement node) (keywordStatement node) := by
  refine .advance ?_ (.next endOfStatement_agree fun _ _ => .pure rfl ?_)
  · rw [hkind]
    nofun
  · simp only [List.mem_cons, List.not_mem_nil, or_false] at hnode
    have hpos := isPlace_of_mem htoken
    rcases hnode with rfl | rfl <;> exact ⟨isStmt_of_exprs rfl (by rw [Suits.dialect]; rfl)
      ⟨⟨rfl, rfl⟩, rfl, rfl⟩ hpos (by simp [Stmt.exprs]), rfl⟩

end Forms

section Blocks

variable (hu : S.ReadsStmt n u v) (hi : n ≤ i) (hj : n ≤ j)

include hu hi hj

theorem block_agree : S.Agree n lax S.IsBody (block u i) (block v j) :=
  .next (expectOperator_agree "\x7b") fun _ _ =>
    repeated_agree skipSemicolons_agree endOfBlock_agree hu hi hj

theorem body_agree : S.Agree n lax S.IsBody (body u i) (body v j) :=
  .test (checkOperator_agree "\x7b") (block_agree hu hi hj)
    (.next hu.agree fun _ hstmt => .pure rfl (isBody_singleton hstmt))

theorem handler?_agree :
    S.Agree n lax (fun found => ∀ handler ∈ found, S.IsHandler handler)
      (handler? u i) (handler? v j) := by
  have hblock : ∀ {pos : Pos}, S.IsPlace pos → ∀ name : Option String,
      (∀ text ∈ name, S.IsWord text) → S.Agree n lax
        (fun found => ∀ handler ∈ found, S.IsHandler handler)
        (do return some (⟨name, ← block u i, pos⟩ : Handler Stmt))
        (do return some (⟨name, ← block v j, pos⟩ : Handler Stmt)) :=
    fun hpos name hname => .next (block_agree hu hi hj) fun _ hbody =>
      .pure rfl (by simpa using ⟨hname, hbody, hpos⟩)
  refine .next position_agree fun pos hpos => .test (eatKeyword_agree "catch")
    (.test (eatOperator_agree "(") ?_ (hblock hpos none (by simp))) (.pure rfl (by simp))
  exact .next identifier_agree fun name hname => .next (expectOperator_agree ")")
    fun _ _ => hblock hpos (some name) (by simpa using hname)

theorem functionRest_agree (hx : S.ReadsExpr n x y) {name : String} {pos : Pos}
    (hname : S.IsWord name) (hpos : S.IsPlace pos) :
    S.Agree n lax (fun stmt => S.IsStmt stmt ∧ stmt.pos = pos)
      (functionRest x u i name pos) (functionRest y v j name pos) :=
  .next (expectOperator_agree "(") fun _ _ =>
    .next (enclosed_agree ")" (parameter_agree hx) hi hj) fun _ hparams =>
      .next (block_agree hu hi hj) fun _ hbody =>
        .pure rfl ⟨isStmt_functionDef hpos hname hparams hbody, rfl⟩

theorem conditionAndBody_agree (hx : S.ReadsExpr n x y) (keyword : String) :
    S.Agree (n + 1) strict (fun found => S.IsExpr found.1 ∧ S.IsBody found.2)
      (conditionAndBody x u i keyword) (conditionAndBody y v j keyword) :=
  .first (expectKeyword_agree keyword) fun _ _ => .next (expectOperator_agree "(")
    fun _ _ => .next hx fun _ hcondition => .next (expectOperator_agree ")") fun _ _ =>
      .next (body_agree hu hi hj) fun _ hbody => .pure rfl ⟨hcondition, hbody⟩

theorem branches_agree [Suits S] (hx : S.ReadsExpr n x y) :
    S.Agree n lax (fun found => (∀ clause ∈ found.1, S.IsBranch clause) ∧
        ∀ body ∈ found.2, S.IsBody body) (branches x u i i) (branches y v j j) := by
  refine .rounds (fun hm _ _ ih => ?_) (Nat.le_refl n) hi hj
  refine .eat (eatKeyword_agree "else") (.test (checkKeyword_agree "if") ?_ ?_)
    (.pure rfl ⟨by simp, by simp⟩)
  · have hbranch := (conditionAndBody_agree hu hi hj hx "if").within
      (Nat.le_succ_of_le (Nat.le_of_lt hm))
    exact .next position_agree fun pos hpos => .next hbranch fun found hfound => .next ih
      fun rest hrest => .pure rfl
        ⟨List.forall_mem_cons.mpr ⟨⟨hfound.1, hfound.2, hpos⟩, hrest.1⟩, hrest.2⟩
  · exact .next ((body_agree hu hi hj).within (Nat.le_of_lt hm)) fun _ hbody =>
      .pure rfl ⟨by simp, by simpa using hbody⟩

theorem classMember_agree [Suits S] (hx : S.ReadsExpr n x y) :
    S.ReadsStmt n (classMember x u i) (classMember y v j) := by
  cases n with
  | zero => exact .none
  | succ n =>
      have hmember : S.ReadsStmt (n + 1)
          (do
            let pos ← position
            let name ← identifier
            if ← checkOperator "(" then functionRest x u i name pos
            else
              let value ← if ← eatOperator "=" then do pure (some (← x)) else pure none
              endOfStatement
              return .assign [.var name pos] value none pos)
          (do
            let pos ← position
            let name ← identifier
            if ← checkOperator "(" then functionRest y v j name pos
            else
              let value ← if ← eatOperator "=" then do pure (some (← y)) else pure none
              endOfStatement
              return .assign [.var name pos] value none pos) := by
        refine .of_forms fun token htoken => .position (.of (.first identifier_agree
          fun name hname => .test (checkOperator_agree "(") ?_ ?_))
        · exact functionRest_agree (hu.within (Nat.le_succ n)) (Nat.le_of_lt hi) (Nat.le_of_lt hj)
            hx.fewer hname (isPlace_of_mem htoken)
        · have hpos : S.IsPlace token.pos := isPlace_of_mem htoken
          exact .option (eatOperator_agree "=") hx.fewer fun value hvalue =>
            .next endOfStatement_agree fun _ _ =>
              .pure rfl ⟨isStmt_variable hname none hpos hpos hvalue, rfl⟩
      intro token htoken s hs hsize hcurrent
      change S.Meets _ _ s ((if _ then _ else _ : Parser Stmt) s)
        ((if _ then _ else _ : Parser Stmt) s)
      split
      · exact (hmember.behind advance_agree) token htoken s hs hsize hcurrent
      · exact hmember token htoken s hs hsize hcurrent

section Forms

variable {token : Token} (htoken : token ∈ S.tokens)

include htoken

theorem tryStatement_agree : S.ReadsForm (n + 1) token (tryStatement u i) (tryStatement v j) := by
  have hblock := block_agree hu hi hj
  refine .position (.of (.first (expectKeyword_agree "try") fun _ _ =>
    .next hblock fun found hfound => .next (handler?_agree hu hi hj) fun handler hhandler =>
      .option (eatKeyword_agree "finally") hblock fun cleanup hcleanup => ?_))
  exact .ite (fun _ => unexpected_agree _) fun hsome =>
    .pure rfl ⟨isStmt_tryCatch (isPlace_of_mem htoken) hfound hhandler hcleanup hsome, rfl⟩

variable (hx : S.ReadsExpr n x y)

include hx

theorem functionDef_agree : S.ReadsForm (n + 1) token (functionDef x u i) (functionDef y v j) :=
  .position (.of (.first (expectKeyword_agree "function") fun _ _ =>
    .next identifier_agree fun _ hname =>
      functionRest_agree hu hi hj hx hname (isPlace_of_mem htoken)))

theorem classDef_agree [Suits S] :
    S.ReadsForm (n + 1) token (classDef x u i) (classDef y v j) := by
  refine .position (.of (.first (expectKeyword_agree "class") fun _ _ =>
    .next identifier_agree fun name hname => .option (eatKeyword_agree "extends")
      identifier_agree fun base hbase => .next (expectOperator_agree "\x7b") fun _ _ => ?_))
  exact .next (repeated_agree skipSemicolons_agree endOfBlock_agree
    (classMember_agree hu hi hj hx) hi hj) fun _ hbody =>
      .pure rfl ⟨isStmt_classDef (isPlace_of_mem htoken) hname hbase hbody, rfl⟩

theorem ifStatement_agree [Suits S] :
    S.ReadsForm (n + 1) token (ifStatement x u i) (ifStatement y v j) :=
  .position (.of (.first (conditionAndBody_agree hu hi hj hx "if") fun _ hfound =>
    .next (branches_agree hu hi hj hx) fun _ hothers => .pure rfl
      ⟨isStmt_ifElse (isPlace_of_mem htoken) hfound.1 hfound.2 hothers.1 hothers.2, rfl⟩))

theorem whileStatement_agree :
    S.ReadsForm (n + 1) token (whileStatement x u i) (whileStatement y v j) :=
  .position (.of (.first (conditionAndBody_agree hu hi hj hx "while") fun _ hfound =>
    .pure rfl ⟨isStmt_whileDo (isPlace_of_mem htoken) hfound.1 hfound.2, rfl⟩))

theorem eachLoop_agree :
    S.Agree n lax (fun stmt => S.IsStmt stmt ∧ stmt.pos = token.pos)
      (eachLoop x u i token.pos) (eachLoop y v j token.pos) := by
  refine .next current_agree fun _ _ => .ite
    (fun _ => .next advance_agree fun _ _ => ?_) fun _ => ?_
  all_goals
    refine .next identifier_agree fun target htarget => .next (expectKeyword_agree "of")
      fun _ _ => .next hx fun iterable hiterable => .next (expectOperator_agree ")") fun _ _ =>
        .next (body_agree hu hi hj) fun _ hbody => .pure rfl ⟨?_, rfl⟩
    exact isStmt_forIn (isPlace_of_mem htoken) htarget
      ⟨rfl, by simpa [Iteration.exprs] using hiterable⟩ hbody

end Forms

end Blocks

section Clauses

variable [Suits S] (hx : S.ReadsExpr (n + 1) x y) (hi : n < i) (hj : n < j)

include hx hi hj

section Forms

variable {token : Token} (htoken : token ∈ S.tokens)

include htoken

theorem inlineStatement_agree :
    S.ReadsForm (n + 1) token (inlineStatement x i) (inlineStatement y j) := by
  have hpos : S.IsPlace token.pos := isPlace_of_mem htoken
  have hplace : ∀ e, S.IsExpr e → S.IsPlace e.pos :=
    fun _ h => h.self.place
  have hunary := (unary_agree hx.fewer hi hj).fewer
  refine .position (.of (.mark (oneOperator_agree incrementOps) ?_ fun op hop =>
    .next hunary fun target htarget => .next (checkAssignable_agree (hplace target htarget))
      fun _ hassignable => .pure rfl
        ⟨isStmt_increment hpos (hop op rfl) hassignable htarget, rfl⟩))
  refine .first hx fun first hfirst => .next current_agree fun next _ =>
    .ite (fun _ => assignment_agree hplace hx.fewer (Nat.le_of_lt hi) (Nat.le_of_lt hj) hfirst
      fun targets value hne htargets hvalue => ⟨isStmt_assign hpos hne htargets hvalue, rfl⟩)
      fun _ => ?_
  cases hentry : augmentedOps.find? (fun entry => next.isOperator entry.1) with
  | some entry =>
      have hops : ∀ entry ∈ augmentedOps, entry.2 ≠ .floorDivide := by decide
      exact augmented_agree hplace hx.fewer entry.2 hfirst fun value hassignable hvalue =>
        ⟨isStmt_augAssign hpos (fun _ => hops entry (List.mem_of_find?_eq_some hentry)) hassignable
          hfirst hvalue, rfl⟩
  | none =>
      dsimp only
      cases hentry : incrementOps.find? (fun entry => next.isOperator entry.1) with
      | some entry =>
          have hop := List.mem_map_of_mem (f := (·.2)) (List.mem_of_find?_eq_some hentry)
          exact .next (checkAssignable_agree (hplace first hfirst)) fun _ hassignable =>
            .next advance_agree fun _ _ =>
              .pure rfl ⟨isStmt_increment hpos hop hassignable hfirst, rfl⟩
      | none => exact .pure rfl ⟨isStmt_expr hpos hfirst, rfl⟩

theorem simpleStatement_agree :
    S.ReadsForm (n + 1) token (simpleStatement x i) (simpleStatement y j) := by
  refine .first (inlineStatement_agree hx hi hj htoken) fun found hfound => ?_
  obtain ⟨hstmt, hsame⟩ := recognizePrint_isStmt hfound.1
  exact .next endOfStatement_agree fun _ _ => .pure rfl ⟨hstmt, hsame.trans hfound.2⟩

end Forms

-- Clauses are read as statements, and all that is read as one may be one.
theorem inlineClause_agree :
    S.Agree (n + 1) strict (IsClause S) (inlineStatement x i) (inlineStatement y j) :=
  (ReadsStmt.of_forms fun _ h => inlineStatement_agree hx hi hj h).agree.gives inlineStatement_gives

theorem initClause_agree :
    S.Agree (n + 1) lax (fun clause => ∀ stmt ∈ clause, IsClause S stmt)
      (initClause x i) (initClause y j) := by
  refine .test (checkOperator_agree ";") (.pure rfl (by simp)) ?_
  refine .look (fun token => token) (fun _ => rfl) fun token htoken => ?_
  cases declaration? token with
  | some declaration =>
      have hdeclare : S.ReadsStmt (n + 1) (declare x declaration)
          (declare y declaration) := .of_forms fun _ h => declare_agree h hx declaration
      exact .of (.next (hdeclare.agree.gives (declare_gives declaration)) fun _ hstmt =>
        .pure rfl (by simpa [IsClause] using hstmt))
  | none =>
      exact .of (.next (inlineClause_agree hx hi hj) fun _ hstmt => .pure rfl (by simpa using hstmt))

variable (hu : S.ReadsStmt n u v) {token : Token} (htoken : token ∈ S.tokens)

include hu htoken

theorem clauseLoop_agree :
    S.Agree n lax (fun stmt => S.IsStmt stmt ∧ stmt.pos = token.pos)
      (clauseLoop x u i token.pos) (clauseLoop y v j token.pos) := by
  have hpos : S.IsPlace token.pos := isPlace_of_mem htoken
  refine .next (initClause_agree hx hi hj).fewer fun init hinit =>
    .next (expectOperator_agree ";") fun _ _ => .optionUnless (checkOperator_agree ";")
      hx.fewer fun test htest => .next (expectOperator_agree ";") fun _ _ =>
        .optionUnless (checkOperator_agree ")") (inlineClause_agree hx hi hj).fewer
          fun update hupdate => ?_
  refine .next (expectOperator_agree ")") fun _ _ =>
    .next (body_agree hu (Nat.le_of_lt hi) (Nat.le_of_lt hj)) fun found hfound => ?_
  cases hcounts : countingLoop? init test update with
  | some counted =>
      obtain ⟨htarget, hiteration⟩ := countingLoop_isExpr (fun stmt h => (hinit stmt h).1) htest
        (fun stmt h => (hupdate stmt h).1) hcounts
      exact .pure rfl ⟨isStmt_forIn hpos htarget hiteration hfound, rfl⟩
  | none => exact .pure rfl ⟨isStmt_forClauses hpos hinit htest hupdate hfound, rfl⟩

theorem forStatement_agree : S.ReadsForm (n + 1) token (forStatement x u i) (forStatement y v j) :=
  .position (.of (.first (expectKeyword_agree "for") fun _ _ =>
    .next (expectOperator_agree "(") fun _ _ => .next current_agree fun _ _ =>
      .next (peek_agree _) fun _ _ => .next (peek_agree _) fun _ _ =>
        .ite (fun _ => eachLoop_agree hu (Nat.le_of_lt hi) (Nat.le_of_lt hj) htoken hx.fewer)
          fun _ => clauseLoop_agree hx hi hj hu htoken))

omit htoken

theorem anyStatement_agree : S.ReadsStmt (n + 1) (anyStatement x u i) (anyStatement y v j) := by
  have hi' := Nat.le_of_lt hi
  have hj' := Nat.le_of_lt hj
  refine .look fun token htoken => ?_
  have hsimple := ReadsOn.of_form (simpleStatement_agree hx hi hj htoken)
  by_cases hbrace : token.isOperator "\x7b" = true
  · rw [if_pos hbrace, if_pos hbrace]
    exact .of_form (refused_agree (.standalone hbrace))
  rw [if_neg hbrace, if_neg hbrace]
  by_cases hkind : (token.kind != .keyword) = true
  · rw [if_pos hkind, if_pos hkind]
    exact hsimple
  rw [if_neg hkind, if_neg hkind]
  have hkeyword : token.kind = .keyword := by simpa using hkind
  split
  · exact .of_form (importStatement_agree htoken hi' hj')
  · exact export_agree hkeyword hu
  · exact .of_form (functionDef_agree hu hi' hj' htoken hx.fewer)
  · exact .of_form (classDef_agree hu hi' hj' htoken hx.fewer)
  · exact .of_form (ifStatement_agree hu hi' hj' htoken hx.fewer)
  · exact .of_form (forStatement_agree hx hi hj hu htoken)
  · exact .of_form (whileStatement_agree hu hi' hj' htoken hx.fewer)
  · exact .of_form (tryStatement_agree hu hi' hj' htoken)
  · exact .of_form (returnStatement_agree htoken hx)
  · exact .of_form (keywordStatement_agree htoken hkeyword (by simp))
  · exact .of_form (keywordStatement_agree htoken hkeyword (by simp))
  · cases declaration? token with
    | some declaration =>
        exact .of_form (.first (declare_agree htoken hx declaration) fun _ hfound =>
          .next endOfStatement_agree fun _ _ => .pure rfl hfound)
    | none => exact hsimple

end Clauses

-- A statement reads a token. Its limit does not matter if there are at most so many tokens.
theorem statement_agree [Suits S] (hx : S.ReadsExpr n x y) (hi : n ≤ i) (hj : n ≤ j) :
    S.ReadsStmt n (statement x i) (statement y j) := by
  induction n generalizing i j with
  | zero => exact .none
  | succ n ih =>
      obtain ⟨i, rfl⟩ := Nat.exists_eq_add_one.mpr (Nat.zero_lt_of_lt hi)
      obtain ⟨j, rfl⟩ := Nat.exists_eq_add_one.mpr (Nat.zero_lt_of_lt hj)
      exact anyStatement_agree hx hi hj
        (ih hx.fewer (Nat.le_of_succ_le_succ hi) (Nat.le_of_succ_le_succ hj))

theorem program_agree [Suits S] (hx : S.ReadsExpr n x y) (hi : n ≤ i) (hj : n ≤ j) :
    S.Agree n lax S.IsModule (program x i) (program y j) :=
  .next position_agree fun _ hpos => .next (repeated_agree skipSemicolons_agree
    isAtEnd_agree (statement_agree hx hi hj) hi hj) fun _ hbody => .pure rfl ⟨hpos, hbody⟩

end Statements

end Diglot.Braced
