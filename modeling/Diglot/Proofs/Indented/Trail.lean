import Diglot.Proofs.Indented.Runs

namespace Diglot.Indented

-- What a token does to the open blocks, whose widths stand innermost first.
inductive Shifts : List Nat → Token → List Nat → Prop
  | indent {blocks : List Nat} {width : Nat} {pos : Pos} (hwidth : blocks.headD 0 < width) :
      Shifts blocks ⟨.indent, toString width, pos⟩ (width :: blocks)
  | dedent {width : Nat} {blocks : List Nat} {pos : Pos} :
      Shifts (width :: blocks) ⟨.dedent, "", pos⟩ blocks
  | solid {blocks : List Nat} {token : Token} (hindent : token.kind ≠ .indent)
      (hdedent : token.kind ≠ .dedent) : Shifts blocks token blocks

-- Whether a category of tokens is about lines and blocks.
def isLayout (kind : TokenKind) : Bool := kind == .newline || kind == .indent || kind == .dedent

-- The tokens that only the end of a program leaves to come.
def Closing (tokens : List Token) : Prop :=
  ∀ token ∈ tokens, token.kind = .dedent ∨ token.kind = .eof

-- Tokens with the blocks that are open behind each, from given blocks and brackets on. Lines and
-- blocks start and end outside brackets, but at the end of the program all blocks are left.
inductive Trail : List Nat → Nat → List (Token × List Nat) → Prop
  | eof {depth : Nat} {pos : Pos} : Trail [] depth [(⟨.eof, "", pos⟩, [])]
  | step {blocks behind : List Nat} {depth : Nat} {token : Token} {rest : List (Token × List Nat)}
      (hshifts : Shifts blocks token behind) (hkind : token.kind ≠ .eof)
      (hlayout : isLayout token.kind = true →
        depth = 0 ∨ token.kind = .dedent ∧ Closing (rest.map (·.1)))
      (hrest : Trail behind (token.bracketed depth) rest) :
      Trail blocks depth ((token, behind) :: rest)

-- The tokens of some steps, each with the blocks that are open behind it.
def trail (steps : List Step) : List (Token × List Nat) :=
  steps.filterMap fun step => step.part.token.map (·, step.blocks)

theorem tokens_eq_map_trail (steps : List Step) : tokens steps = (trail steps).map (·.1) := by
  induction steps with
  | nil => rfl
  | cons step steps ih =>
      rw [tokens_cons, ih, trail, trail, List.filterMap_cons]
      cases step.part.token <;> rfl

theorem trail_append (steps more : List Step) : trail (steps ++ more) = trail steps ++ trail more :=
  List.filterMap_append

theorem trail_opened (state : State) (layout : List Token) :
    trail (state.opened layout) = trail (laid (indentWidth state.blanks) state.blocks layout) := by
  have hblanks : trail (state.blanks.map fun c => ⟨⟨[c], none⟩, state.blocks⟩) = [] := by
    simp [trail]
  rw [State.opened, trail_append, hblanks, List.nil_append]

section Lexing

variable {depth : Nat} {rest : List (Token × List Nat)} {state : State} {steps : List Step}

-- Blocks are left one by one.
theorem trail_dedents (left blocks : List Nat) (width : Nat) (pos : Pos)
    (hdepth : depth = 0 ∨ Closing (rest.map (·.1))) (h : Trail blocks depth rest) :
    Trail (left ++ blocks) depth
      (trail (laid width (left ++ blocks) (List.replicate left.length ⟨.dedent, "", pos⟩)) ++
        rest) := by
  induction left with
  | nil => exact h
  | cons outer left ih =>
      change Trail _ _ ((⟨.dedent, "", pos⟩, left ++ blocks) ::
        (trail (laid width (left ++ blocks) (List.replicate left.length ⟨.dedent, "", pos⟩)) ++
          rest))
      refine .step .dedent nofun (fun _ => ?_) ih
      rcases hdepth with hdepth | hclosing
      · exact .inl hdepth
      · refine .inr ⟨rfl, ?_⟩
        intro token htoken
        rw [List.map_append, ← tokens_eq_map_trail, tokens_laid, List.mem_append] at htoken
        rcases htoken with htoken | htoken
        · exact .inl (by rw [List.eq_of_mem_replicate htoken])
        · exact hclosing token htoken

theorem Opens.trail {next : State} {layout : List Token} (hopens : Opens state layout next)
    (h : Trail next.blocks 0 rest) :
    Trail state.blocks 0 (Indented.trail (state.opened layout) ++ rest) := by
  rw [trail_opened]
  rcases hopens.layout with ⟨hwidth, rfl, hblocks⟩ | ⟨left, hleft, rfl⟩
  · rw [hblocks] at h
    exact .step (.indent hwidth) nofun (fun _ => .inl rfl) h
  · rw [hleft]
    exact trail_dedents left next.blocks _ _ (.inl rfl) h

-- A piece makes no token of lines and blocks but the line feed.
theorem kind_of_piece {c : Char} {more : List Char} {found : Piece} {kind : TokenKind}
    {lexeme : String} (h : piece (0 < depth) c more = .ok found)
    (htoken : found.token = some (kind, lexeme)) :
    kind ≠ .indent ∧ kind ≠ .dedent ∧ kind ≠ .eof ∧
      (kind = .newline → lexeme = "\n" ∧ depth = 0) := by
  obtain ⟨behind, -, hsaid⟩ := piece_cuts h
  have hspelled := hsaid .start
  simp only [Lexicon.Says, Part.ofPiece, htoken, Option.map_some, Lexicon.Spells] at hspelled
  have hne := piece_ne_nil h
  refine ⟨?_, ?_, ?_, ?_⟩
  · rintro rfl
    exact hne hspelled
  · rintro rfl
    exact hne hspelled
  · rintro rfl
    exact hne hspelled
  · rintro rfl
    exact hspelled.2

theorem trail_piece (found : Piece) (pos : Pos) (blocks : List Nat) (steps : List Step) :
    trail (⟨.ofPiece found pos, blocks⟩ :: steps) =
      (found.tokens pos).map (·, blocks) ++ trail steps := by
  unfold Piece.tokens trail
  rw [List.filterMap_cons]
  cases htoken : found.token <;> simp [Part.ofPiece, htoken]

theorem Reading.trail (h : Reading state steps) :
    Trail state.blocks state.brackets (Indented.trail steps) := by
  induction h with
  | @ending state hrest =>
      have heof : Trail [] state.brackets [(⟨.eof, "", state.cursor.pos⟩, [])] := .eof
      have hclosing : Closing ([((⟨.eof, "", state.cursor.pos⟩ : Token), ([] : List Nat))].map
          (·.1)) := by
        intro token htoken
        rw [List.mem_singleton.mp htoken]
        exact .inr rfl
      have htrail := trail_dedents state.blocks [] 0 state.cursor.pos (.inr hclosing) heof
      rw [List.append_nil] at htrail
      rw [trail_append]
      exact htrail
  | @piece state c more found steps hrest hpiece htoken _ ih =>
      have hbrackets := bracketsAfter_eq state.brackets found state.cursor.pos
      rw [trail_piece]
      change Trail state.blocks (bracketsAfter state.brackets found) _ at ih
      cases hfound : found.token with
      | none =>
          rw [hbrackets] at ih
          simpa only [Piece.tokens, hfound, Token.bracketDepth, List.foldl_nil, List.map_nil,
            List.nil_append] using ih
      | some token =>
          obtain ⟨kind, lexeme⟩ := token
          obtain ⟨hindent, hdedent, heof, hnewline⟩ := kind_of_piece hpiece hfound
          simp only [Piece.tokens, hfound] at hbrackets ⊢
          rw [hbrackets] at ih
          refine .step (.solid hindent hdedent) heof (fun hlayout => ?_) ih
          have hkind : kind = .newline := by simpa [isLayout, hindent, hdedent] using hlayout
          subst hkind
          rw [hfound, (hnewline rfl).1] at htoken
          exact absurd rfl htoken
  | @line state next c more found layout steps hrest hpiece htoken hline _ ih =>
      have hopens := opens_of_openLine hline
      have hdepth : state.brackets = 0 := ((kind_of_piece hpiece htoken).2.2.2 rfl).2
      have hskip : (state.skip found).brackets = 0 := by
        simp only [State.skip, bracketsAfter, htoken]
        exact hdepth
      rw [hopens.brackets, hskip] at ih
      rw [trail_piece, trail_append, hdepth]
      simp only [Piece.tokens, htoken]
      exact .step (.solid (by simp) (by simp)) (by simp) (fun _ => .inl rfl) (hopens.trail ih)

theorem Runs.trail {source : String} (h : Runs source steps) :
    Trail [] 0 (Indented.trail steps) := by
  obtain ⟨hline, hbehind⟩ := h
  have hopens := opens_of_openLine hline
  have htrail := hbehind.trail
  rw [hopens.brackets] at htrail
  rw [trail_append]
  exact hopens.trail htrail

end Lexing

section Balance

variable {blocks : List Nat} {depth : Nat} {steps : List (Token × List Nat)} {token : Token}

theorem Trail.ending (h : Trail blocks depth steps) :
    ∃ before pos, steps = before ++ [(⟨.eof, "", pos⟩, [])] ∧
      ∀ step ∈ before, step.1.kind ≠ .eof := by
  induction h with
  | @eof depth pos => exact ⟨[], pos, rfl, by simp⟩
  | @step blocks behind depth token rest _ hkind _ _ ih =>
      obtain ⟨before, pos, rfl, hkinds⟩ := ih
      refine ⟨(token, behind) :: before, pos, rfl, ?_⟩
      simpa [hkind] using hkinds

theorem Trail.outside (h : Trail blocks depth steps) {before after : List Token}
    (hsplit : steps.map (·.1) = before ++ token :: after) (hlayout : isLayout token.kind = true) :
    Token.bracketDepth depth before = 0 ∨ token.kind = .dedent ∧ Closing after := by
  induction h generalizing before with
  | @eof depth pos =>
      cases before with
      | nil =>
          cases hsplit
          cases hlayout
      | cons first before => simp at hsplit
  | @step blocks behind depth first rest _ _ hfirst _ ih =>
      cases before with
      | nil =>
          cases hsplit
          exact hfirst hlayout
      | cons other before =>
          rw [List.map_cons, List.cons_append, List.cons.injEq] at hsplit
          obtain ⟨rfl, hsplit⟩ := hsplit
          exact ih hsplit

-- What every token preserves holds behind every token.
theorem Trail.invariant {P : List Token → List Nat → Prop}
    (hstep : ∀ tokens blocks token behind, P tokens blocks → Shifts blocks token behind →
      P (tokens ++ [token]) behind) (h : Trail blocks depth steps) {passed : List Token}
    (hstart : P passed blocks) {before after : List (Token × List Nat)} {behind : List Nat}
    (hsplit : steps = before ++ (token, behind) :: after) :
    P (passed ++ before.map (·.1) ++ [token]) behind := by
  induction h generalizing before passed with
  | @eof depth pos =>
      cases before with
      | nil =>
          cases hsplit
          have hshifts : Shifts [] ⟨.eof, "", pos⟩ [] := .solid nofun nofun
          simpa using hstep _ _ _ _ hstart hshifts
      | cons first before => simp at hsplit
  | @step blocks inner depth first rest hshifts _ _ _ ih =>
      have hfirst := hstep _ _ _ _ hstart hshifts
      cases before with
      | nil =>
          cases hsplit
          simpa using hfirst
      | cons other before =>
          rw [List.cons_append, List.cons.injEq] at hsplit
          obtain ⟨rfl, hsplit⟩ := hsplit
          simpa using ih hfirst hsplit

end Balance

section Widths

variable {blocks : List Nat}

-- How many tokens have a category.
def countKind (kind : TokenKind) (tokens : List Token) : Nat := tokens.countP (·.kind == kind)

-- The texts of the indents that some tokens leave open, innermost first.
def openIndents (tokens : List Token) : List String :=
  tokens.foldl (fun lexemes token =>
    match token.kind with
    | .indent => token.lexeme :: lexemes
    | .dedent => lexemes.tail
    | _ => lexemes) []

-- Widths of blocks inside one another, innermost first.
structure Nested (widths : List Nat) : Prop where
  decreasing : widths.Pairwise (· > ·)
  positive : ∀ width ∈ widths, 0 < width

theorem Nested.cons {width : Nat} (h : Nested blocks) (hwidth : blocks.headD 0 < width) :
    Nested (width :: blocks) := by
  have hall : ∀ outer ∈ blocks, outer < width := by
    cases blocks with
    | nil => simp
    | cons first rest =>
        have hfirst := (List.pairwise_cons.mp h.decreasing).1
        intro outer houter
        rcases List.mem_cons.mp houter with rfl | houter
        · exact hwidth
        · exact Nat.lt_trans (hfirst outer houter) hwidth
  refine ⟨List.pairwise_cons.mpr ⟨hall, h.decreasing⟩, ?_⟩
  intro outer houter
  rcases List.mem_cons.mp houter with rfl | houter
  · omega
  · exact h.positive outer houter

-- The blocks that are open behind some tokens.
structure Leaves (tokens : List Token) (blocks : List Nat) : Prop where
  count : blocks.length + countKind .dedent tokens = countKind .indent tokens
  lexemes : openIndents tokens = blocks.map toString
  nested : Nested blocks

theorem leaves_nil : Leaves [] [] := ⟨rfl, rfl, .nil, by simp⟩

theorem Leaves.shift {tokens : List Token} {behind : List Nat} {token : Token}
    (h : Leaves tokens blocks) (hshifts : Shifts blocks token behind) :
    Leaves (tokens ++ [token]) behind := by
  obtain ⟨hcount, hlexemes, hnested⟩ := h
  unfold openIndents at hlexemes
  cases hshifts with
  | indent hwidth =>
      refine ⟨?_, ?_, hnested.cons hwidth⟩
      · simp only [countKind, List.countP_append] at hcount ⊢
        simp
        omega
      · simp [openIndents, hlexemes]
  | @dedent width behind pos =>
      refine ⟨?_, ?_, ⟨(List.pairwise_cons.mp hnested.decreasing).2, fun outer houter =>
        hnested.positive outer (.tail _ houter)⟩⟩
      · simp only [countKind, List.countP_append] at hcount ⊢
        simp at hcount ⊢
        omega
      · simp [openIndents, hlexemes]
  | solid hindent hdedent =>
      refine ⟨?_, ?_, hnested⟩
      · simpa [countKind, List.countP_append, hindent, hdedent] using hcount
      · rw [openIndents, List.foldl_append, hlexemes, List.foldl_cons, List.foldl_nil]
        split <;> simp_all

end Widths

end Diglot.Indented
