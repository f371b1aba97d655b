import Diglot.Proofs.Parser.Reaches

namespace Diglot

-- Tokens that a reader may move over without coming to another line.
def Token.isPlain (token : Token) : Bool :=
  match token.kind with
  | .newline | .indent | .eof => false
  | _ => true

namespace Parser

variable {α β ω : Type} {blames : Cause → Cause → Prop} {R : TokenStream → TokenStream → Prop}
  {V : α → α → Prop} {x y : Except Failure (α × TokenStream)}

-- Two results that are in step: values that go together and streams that do, or failures for causes
-- that are not told apart.
def Same (blames : Cause → Cause → Prop) (R : TokenStream → TokenStream → Prop) (V : α → α → Prop) :
    Except Failure (α × TokenStream) → Except Failure (α × TokenStream) → Prop
  | .ok (a, s), .ok (b, t) => V a b ∧ R s t
  | .error failure, .error other => blames failure.cause other.cause
  | _, _ => False

theorem Same.cases (h : Same blames R V x y) :
    (∃ failure other, x = .error failure ∧ y = .error other ∧ blames failure.cause other.cause) ∨
      ∃ a s b t, x = .ok (a, s) ∧ y = .ok (b, t) ∧ V a b ∧ R s t := by
  match x, y with
  | .error failure, .error other => exact .inl ⟨failure, other, rfl, rfl, h⟩
  | .error failure, .ok found => exact h.elim
  | .ok found, .error other => exact h.elim
  | .ok (a, s), .ok (b, t) => exact .inr ⟨a, s, b, t, rfl, rfl, h⟩

theorem Same.mono {S : TokenStream → TokenStream → Prop} {W : α → α → Prop}
    (h : Same blames R V x y) (hR : ∀ {s t}, R s t → S s t) (hV : ∀ {a b}, V a b → W a b) :
    Same blames S W x y := by
  rcases h.cases with ⟨failure, other, rfl, rfl, h⟩ | ⟨a, s, b, t, rfl, rfl, hab, hst⟩
  · exact h
  · exact ⟨hV hab, hR hst⟩

-- What it takes for two runs of a reader to stay in step, the second on tokens without places: the
-- pairs of streams on which they are, and the pairs on which they are once line feeds are skipped.
-- Of the two tokens that the runs are at, places aside only the widths that indents state may
-- differ.
structure Bond where
  tight : TokenStream → TokenStream → Prop
  loose : TokenStream → TokenStream → Prop
  -- Causes of failures that are not told apart.
  blames : Cause → Cause → Prop
  blames_refl : ∀ cause, blames cause cause
  loose_of_tight : ∀ {s t}, tight s t → loose s t
  place : ∀ {s t}, loose s t → t.current.pos = .start
  kind : ∀ {s t}, tight s t → s.current.kind = t.current.kind
  lexeme : ∀ {s t}, tight s t → s.current.kind ≠ .indent → s.current.lexeme = t.current.lexeme
  next : ∀ {s t}, tight s t → s.current.kind ≠ .newline → ∀ kind ≠ .indent, ∀ lexeme,
    (s.peek 1).any (·.is kind lexeme) = (t.peek 1).any (·.is kind lexeme)
  depth : ∀ {s t}, tight s t → s.depth = t.depth
  blames_unexpected : ∀ {s t}, tight s t → ∀ expected,
    blames (s.unexpected expected).cause (t.unexpected expected).cause
  moves : ∀ {s t}, tight s t → s.current.kind ≠ .newline → s.current.kind ≠ .eof →
    Same blames tight (fun _ _ => True) s.advance t.advance
  feeds : ∀ {s t}, tight s t → s.current.kind = .newline →
    Same blames loose (fun _ _ => True) s.advance t.advance
  skips : ∀ {s t}, loose s t →
    tight (s.dropWhile (·.kind == .newline)) (t.dropWhile (·.kind == .newline))

-- The second value is the first without its places.
abbrev Bare [Placed α] (a b : α) : Prop := b = placeless a

namespace Bond

-- Two readers that go in step from streams to streams.
def InStep (B : Bond) (R S : TokenStream → TokenStream → Prop) (V : α → α → Prop)
    (p q : Parser α) : Prop :=
  ∀ ⦃s t⦄, R s t → Same B.blames S V (p s) (q t)

variable {B : Bond} {R S T : TokenStream → TokenStream → Prop} {V : α → α → Prop} {W : β → β → Prop}
  {p p' q q' : Parser α} {f g : α → Parser β}

namespace InStep

variable {a b : α}

theorem bindWith (hp : B.InStep R S V p q) (hf : ∀ a b, V a b → B.InStep S T W (f a) (g b)) :
    B.InStep R T W (p >>= f) (q >>= g) := by
  intro s t hst
  rw [bind_run, bind_run]
  rcases (hp hst).cases with ⟨failure, other, hps, hqt, h⟩ | ⟨a, s', b, t', hps, hqt, hab, hst'⟩
  · rw [hps, hqt]
    exact h
  · rw [hps, hqt]
    exact hf a b hab hst'

theorem bind [Placed α] (hp : B.InStep R S Bare p q)
    (hf : ∀ a, B.InStep S T W (f a) (g (placeless a))) : B.InStep R T W (p >>= f) (q >>= g) :=
  hp.bindWith fun a _ hab => hab ▸ hf a

theorem mono {R' S' : TokenStream → TokenStream → Prop} (h : B.InStep R S V p q)
    (hR : ∀ {s t}, R' s t → R s t) (hS : ∀ {s t}, S s t → S' s t) : B.InStep R' S' V p q :=
  fun _ _ hst => (h (hR hst)).mono hS id

theorem give (h : V a b) (hRS : ∀ {s t}, R s t → S s t) :
    B.InStep R S V (Pure.pure a) (Pure.pure b) :=
  fun _ _ hst => ⟨h, hRS hst⟩

theorem pure [Placed α] (h : b = placeless a) :
    B.InStep R R Bare (Pure.pure a) (Pure.pure b) := give h id

-- Failing for the same cause, at whatever places.
theorem fail {cause : Cause} {pos other : Pos} :
    B.InStep R S V (throw ⟨cause, pos⟩ : Parser α) (throw ⟨cause, other⟩) :=
  fun _ _ _ => B.blames_refl cause

theorem ite {c : Prop} [Decidable c] (hp : B.InStep R S V p p') (hq : B.InStep R S V q q') :
    B.InStep R S V (if c then p else q) (if c then p' else q') := by
  split
  · exact hp
  · exact hq

-- A test, and one of two readers by its answer.
theorem test {question : Parser Bool} (h : B.InStep R S Bare question question)
    (hp : B.InStep S T V p p') (hq : B.InStep S T V q q') :
    B.InStep R T V (do if ← question then p else q) (do if ← question then p' else q') :=
  h.bind fun _ => .ite hp hq

-- A test that looks at the stream and leaves it alone.
theorem look {c : TokenStream → Bool} (hc : ∀ {s t}, R s t → c s = c t)
    (hp : B.InStep (fun s t => R s t ∧ c s = true) S V p p')
    (hq : B.InStep (fun s t => R s t ∧ c s = false) S V q q') :
    B.InStep R S V (do if c (← get) then p else q) (do if c (← get) then p' else q') := by
  intro s t hst
  change Same B.blames S V ((if c s then p else q) s) ((if c t then p' else q') t)
  rw [← hc hst]
  cases h : c s with
  | false => exact hq ⟨hst, h⟩
  | true => exact hp ⟨hst, h⟩

end InStep

-- Readers that leave the runs in step.
abbrev Steady (B : Bond) [Placed α] (p q : Parser α) : Prop := B.InStep B.tight B.tight Bare p q

section Tokens

variable {s t : TokenStream}

theorem is_eq (h : B.tight s t) {kind : TokenKind} (hkind : kind ≠ .indent) (lexeme : String) :
    s.current.is kind lexeme = t.current.is kind lexeme := by
  unfold Token.is
  rw [← B.kind h]
  by_cases heq : s.current.kind = kind
  · rw [B.lexeme h (heq ▸ hkind)]
  · rw [beq_eq_false_iff_ne.mpr heq]
    rfl

theorem current_eq (h : B.tight s t) (hkind : s.current.kind ≠ .indent) :
    t.current = placeless s.current := by
  have hplace := B.place (B.loose_of_tight h)
  have hlexeme := B.lexeme h hkind
  have hkind := B.kind h
  cases hs : s.current
  cases ht : t.current
  simp_all

theorem isAtEnd_eq (h : B.tight s t) : s.isAtEnd = t.isAtEnd := by
  rw [TokenStream.isAtEnd, B.kind h, TokenStream.isAtEnd]

end Tokens

theorem position_steady : B.Steady position position :=
  fun _ _ hst => ⟨B.place (B.loose_of_tight hst), hst⟩

theorem isAtEnd_steady : B.Steady isAtEnd isAtEnd := fun _ _ hst => ⟨(isAtEnd_eq hst).symm, hst⟩

theorem check_steady (kind : TokenKind) : B.Steady (check kind) (check kind) := fun s t hst =>
  ⟨show (t.current.kind == kind) = (s.current.kind == kind) by rw [B.kind hst], hst⟩

theorem checkOperator_steady (lexeme : String) :
    B.Steady (checkOperator lexeme) (checkOperator lexeme) :=
  fun _ _ hst => ⟨(is_eq hst (by decide) lexeme).symm, hst⟩

theorem unexpected_inStep (expected : String) :
    B.InStep B.tight S V (unexpected expected) (unexpected expected) :=
  fun _ _ hst => B.blames_unexpected hst expected

theorem refused_inStep (explanation : String) :
    B.InStep R S V (refused explanation) (refused explanation) := fun _ _ _ => B.blames_refl _

theorem exhausted_inStep : B.InStep R S V exhausted exhausted := refused_inStep _

section Reading

variable {token : Token} {kind : TokenKind}

-- The streams of two runs at tokens that can be moved over.
def fresh (B : Bond) (s t : TokenStream) : Prop :=
  B.tight s t ∧ s.current.isPlain = true

theorem ne_of_isPlain (h : token.isPlain = true) :
    token.kind ≠ .newline ∧ token.kind ≠ .eof ∧ token.kind ≠ .indent := by
  refine ⟨?_, ?_, ?_⟩ <;> intro hkind <;> simp [Token.isPlain, hkind] at h

theorem advance_fresh : B.InStep B.fresh B.tight Bare advance advance := by
  rintro s t ⟨hst, hplain⟩
  obtain ⟨hnewline, heof, hindent⟩ := ne_of_isPlain hplain
  rcases (B.moves hst hnewline heof).cases with
    ⟨failure, other, hs, ht, h⟩ | ⟨a, s', b, t', hs, ht, -, h⟩
  · change Same B.blames B.tight Bare s.advance t.advance
    rw [hs, ht]
    exact h
  · change Same B.blames B.tight Bare s.advance t.advance
    rw [hs, ht, TokenStream.eq_current_of_advance hs, TokenStream.eq_current_of_advance ht]
    exact ⟨current_eq hst hindent, h⟩

-- Where the current tokens are looked at, they differ at most in the width that an indent states.
theorem InStep.current {f g : Token → Parser β}
    (h : ∀ a b, a.kind = b.kind → (a.kind ≠ .indent → b = placeless a) →
      B.InStep (fun s t => B.tight s t ∧ s.current = a) S W (f a) (g b)) :
    B.InStep B.tight S W (Parser.current >>= f) (Parser.current >>= g) :=
  fun s t hst => h s.current t.current (B.kind hst) (current_eq hst) ⟨hst, rfl⟩

theorem advance_current (h : token.isPlain = true) :
    B.InStep (fun s t => B.tight s t ∧ s.current = token) B.tight Bare advance advance :=
  advance_fresh.mono (fun hst => ⟨hst.1, hst.2 ▸ h⟩) id

-- A token of a category, once the runs can move over it.
theorem expect_inStep {lexeme : Option String} {V : Token → Token → Prop}
    (hadvance : B.InStep (fun s t => B.tight s t ∧ s.current.kind = kind) S V advance advance)
    (hlexeme : kind = .indent → lexeme = none) :
    B.InStep B.tight S V (expect kind lexeme) (expect kind lexeme) := by
  refine .current fun a b hkind hsame => ?_
  have hfound : (a.kind == kind && lexeme.all (· == a.lexeme)) =
      (b.kind == kind && lexeme.all (· == b.lexeme)) := by
    rw [← hkind]
    by_cases hindent : a.kind = .indent
    · by_cases heq : kind = .indent
      · rw [hlexeme heq]
        rfl
      · rw [hindent, beq_eq_false_iff_ne.mpr (Ne.symm heq)]
        rfl
    · rw [hsame hindent]
      rfl
  rw [← hfound]
  by_cases h : (a.kind == kind && lexeme.all (· == a.lexeme)) = true
  · rw [if_pos h]
    refine hadvance.mono (fun hst => ⟨hst.1, ?_⟩) id
    rw [hst.2]
    simp only [Bool.and_eq_true, beq_iff_eq] at h
    exact h.1
  · rw [if_neg h]
    cases lexeme with
    | none => exact (unexpected_inStep _).mono And.left id
    | some lexeme => exact (unexpected_inStep _).mono And.left id

-- Whether a reader may move over every token of a category.
def isPlainKind (kind : TokenKind) : Bool := (⟨kind, "", .start⟩ : Token).isPlain

theorem isPlain_of_kind (hkind : token.kind = kind) (h : isPlainKind kind = true) :
    token.isPlain = true := by
  subst hkind
  exact h

theorem expect_steady (h : isPlainKind kind = true) (lexeme : Option String) :
    B.Steady (expect kind lexeme) (expect kind lexeme) := by
  refine expect_inStep (advance_fresh.mono (fun hst => ⟨hst.1, isPlain_of_kind hst.2 h⟩) id) ?_
  rintro rfl
  cases h

theorem expect_newline : B.InStep B.tight B.loose (fun _ _ => True) (expect .newline none)
    (expect .newline none) :=
  expect_inStep (fun _ _ hst => B.feeds hst.1 hst.2) fun _ => rfl

theorem expect_indent : B.InStep B.tight B.tight (fun _ _ => True)
    (expect .indent none) (expect .indent none) :=
  expect_inStep (fun _ _ hst => B.moves hst.1 (by simp [hst.2]) (by simp [hst.2])) fun _ => rfl

theorem expectOperator_steady (lexeme : String) :
    B.Steady (expectOperator lexeme) (expectOperator lexeme) := expect_steady rfl (some lexeme)

theorem expectKeyword_steady (lexeme : String) :
    B.Steady (expectKeyword lexeme) (expectKeyword lexeme) := expect_steady rfl (some lexeme)

theorem identifier_steady : B.Steady identifier identifier :=
  (expect_steady rfl none).bind fun _ => .pure rfl

theorem skipNewlines_inStep : B.InStep B.loose B.tight Bare skipNewlines skipNewlines :=
  fun _ _ hst => ⟨rfl, B.skips hst⟩

-- A test of the current token, behind which that can be moved over.
theorem InStep.checks {question : Parser Bool} {c : TokenStream → Bool}
    (hquestion : question = do return c (← get)) (hplain : ∀ s, c s = true → s.current.isPlain = true)
    (hc : ∀ {s t}, B.tight s t → c s = c t) (hp : B.InStep B.fresh S V p p')
    (hq : B.InStep B.tight S V q q') :
    B.InStep B.tight S V (do if ← question then p else q) (do if ← question then p' else q') := by
  subst hquestion
  exact .look hc (hp.mono (fun hst => ⟨hst.1, hplain _ hst.2⟩) id) (hq.mono And.left id)

theorem isPlain_of_is {lexeme : String} (h : token.is kind lexeme = true)
    (hkind : isPlainKind kind = true) : token.isPlain = true := by
  simp only [Token.is, Bool.and_eq_true, beq_iff_eq] at h
  exact isPlain_of_kind h.1 hkind

theorem InStep.checkOperator (lexeme : String) (hp : B.InStep B.fresh S V p p')
    (hq : B.InStep B.tight S V q q') :
    B.InStep B.tight S V (do if ← checkOperator lexeme then p else q)
      (do if ← checkOperator lexeme then p' else q') :=
  .checks rfl (fun _ h => isPlain_of_is h rfl) (fun hst => is_eq hst (by decide) lexeme) hp hq

theorem InStep.checkKeyword (lexeme : String) (hp : B.InStep B.fresh S V p p')
    (hq : B.InStep B.tight S V q q') :
    B.InStep B.tight S V (do if ← checkKeyword lexeme then p else q)
      (do if ← checkKeyword lexeme then p' else q') :=
  .checks rfl (fun _ h => isPlain_of_is h rfl) (fun hst => is_eq hst (by decide) lexeme) hp hq

theorem InStep.check (hkind : isPlainKind kind = true) (hp : B.InStep B.fresh S V p p')
    (hq : B.InStep B.tight S V q q') :
    B.InStep B.tight S V (do if ← check kind then p else q)
      (do if ← check kind then p' else q') :=
  .checks rfl (fun _ h => isPlain_of_kind (eq_of_beq h) hkind)
    (fun {s t} hst => show (s.current.kind == kind) = (t.current.kind == kind) by rw [B.kind hst]) hp hq

theorem eatOperator_steady (lexeme : String) : B.Steady (eatOperator lexeme) (eatOperator lexeme) :=
  .checkOperator lexeme (advance_fresh.bind fun _ => .pure rfl) (.pure rfl)

theorem eatKeyword_steady (lexeme : String) : B.Steady (eatKeyword lexeme) (eatKeyword lexeme) :=
  .checkKeyword lexeme (advance_fresh.bind fun _ => .pure rfl) (.pure rfl)

-- Only the lexeme of an indent may differ, which is no operator.
theorem isOperator_eq {a b : Token} (hkind : a.kind = b.kind)
    (hsame : a.kind ≠ .indent → b = placeless a) : a.isOperator = b.isOperator := by
  funext lexeme
  by_cases hindent : a.kind = .indent
  · rw [Token.isOperator, Token.isOperator, Token.is, Token.is, ← hkind, hindent]
    rfl
  · rw [hsame hindent]
    rfl

theorem oneOperator_steady [Placed ω] (table : List (String × ω))
    (h : ∀ mark : ω, placeless mark = mark) : B.Steady (oneOperator table) (oneOperator table) := by
  refine .current fun a b hkind hsame => ?_
  rw [← isOperator_eq hkind hsame]
  cases hfound : table.find? (fun entry => a.isOperator entry.1) with
  | none => exact .give rfl And.left
  | some entry =>
      have hoperator := List.find?_some hfound
      have hplain : a.isPlain = true := isPlain_of_is hoperator rfl
      exact (advance_current hplain).bind fun _ => .pure (by simp [h])

end Reading

section Loops

variable [Placed α] [Placed ω] {x y : Parser α} {operator? : Parser (Option ω)}

theorem separated_steady (close : String) (hitem : B.Steady x y) (limit : Nat) :
    B.Steady (separated close x limit) (separated close y limit) := by
  induction limit with
  | zero => exact exhausted_inStep
  | succ limit ih =>
      refine .test (checkOperator_steady close) (.pure rfl) (hitem.bind fun _ => ?_)
      exact .test (eatOperator_steady ",") (ih.bind fun _ => .pure rfl) (.pure rfl)

theorem enclosed_steady (close : String) (hitem : B.Steady x y) (limit : Nat) :
    B.Steady (enclosed close x limit) (enclosed close y limit) :=
  (separated_steady close hitem limit).bind fun _ =>
    (expectOperator_steady close).bind fun _ => .pure rfl

theorem whilst_inStep {more : Parser (Option ω)} {item other : ω → Parser α}
    (hmore : B.InStep R R Bare more more)
    (hitem : ∀ mark, B.InStep R R Bare (item mark) (other (placeless mark))) (limit : Nat) :
    B.InStep R R Bare (whilst more item limit) (whilst more other limit) := by
  induction limit with
  | zero => exact exhausted_inStep
  | succ limit ih =>
      refine hmore.bind fun found => ?_
      cases found with
      | none => exact .pure rfl
      | some mark => exact (hitem mark).bind fun _ => ih.bind fun _ => .pure rfl

theorem chainLeft_steady {apply other : ω → α → α → α} (hoperator : B.Steady operator? operator?)
    (hoperand : B.Steady x y)
    (happly : ∀ op a b, other (placeless op) (placeless a) (placeless b) = placeless (apply op a b))
    (limit : Nat) (left : α) : B.Steady (chainLeft operator? x apply limit left)
      (chainLeft operator? y other limit (placeless left)) := by
  induction limit generalizing left with
  | zero => exact exhausted_inStep
  | succ limit ih =>
      refine hoperator.bind fun found => ?_
      cases found with
      | none => exact .pure rfl
      | some op =>
          refine hoperand.bind fun right => ?_
          rw [happly]
          exact ih _

theorem leftAssoc_steady {x y : Parser Expr} {node : ω → Expr → Expr → Pos → Expr}
    (hoperator : B.Steady operator? operator?) (hoperand : B.Steady x y)
    (hnode : ∀ op a b pos, node (placeless op) (placeless a) (placeless b) .start =
      placeless (node op a b pos)) (limit : Nat) :
    B.Steady (leftAssoc operator? x node limit) (leftAssoc operator? y node limit) :=
  position_steady.bind fun pos => hoperand.bind fun first =>
    chainLeft_steady hoperator hoperand (fun op a b => hnode op a b pos) limit first

-- Items with line feeds between them.
theorem repeated_inStep {stop : Parser Bool} (hstop : B.Steady stop stop)
    (hitem : B.InStep B.tight B.loose Bare x y) (limit : Nat) :
    B.InStep B.loose B.tight Bare (repeated skipNewlines stop x limit)
      (repeated skipNewlines stop y limit) := by
  induction limit with
  | zero => exact exhausted_inStep
  | succ limit ih =>
      refine skipNewlines_inStep.bind fun _ => .test hstop (.pure rfl) ?_
      refine hitem.bind fun _ => ?_
      exact ih.bind fun _ => .pure rfl

end Loops

section Assignments

theorem checkAssignable_inStep (e : Expr) :
    B.InStep R R Bare (checkAssignable e) (checkAssignable (placeless e)) := by
  cases e <;> first | exact .pure rfl | exact .fail

theorem checkTargets_inStep (targets : List Expr) :
    B.InStep R R Bare (targets.forM checkAssignable) ((placeless targets).forM checkAssignable) := by
  induction targets with
  | nil => exact .pure rfl
  | cons first rest ih => exact (checkAssignable_inStep first).bind fun _ => ih

variable {x y : Parser Expr} (hx : B.Steady x y)

include hx

-- The runs are at the sign of an assignment.
theorem assignedTo_inStep (limit : Nat) :
    B.InStep B.fresh B.tight Bare (assignedTo x limit) (assignedTo y limit) := by
  induction limit with
  | zero => exact exhausted_inStep
  | succ limit ih =>
      exact advance_fresh.bind fun _ => hx.bind fun _ =>
        .checkOperator "=" (ih.bind fun _ => .pure rfl) (.pure rfl)

theorem assignment_inStep (limit : Nat) (first : Expr) (pos : Pos) :
    B.InStep B.fresh B.tight Bare (assignment x limit first pos)
      (assignment y limit (placeless first) .start) :=
  (assignedTo_inStep hx limit).bind fun found =>
    (checkTargets_inStep (first :: found.1)).bind fun _ => .pure rfl

theorem augmented_inStep (op : BinaryOp) (target : Expr) (pos : Pos) :
    B.InStep B.fresh B.tight Bare (augmented x op target pos)
      (augmented y op (placeless target) .start) :=
  (checkAssignable_inStep target).bind fun _ => advance_fresh.bind fun _ =>
    hx.bind fun _ => .pure rfl

end Assignments

end Bond

end Parser

end Diglot
