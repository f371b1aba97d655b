import Diglot.Proofs.Indented.Lexed
import Diglot.Proofs.Parts

namespace Diglot.Indented

variable {found : List Token} {state : State}

-- What makes no token: a blank, a comment to the end of its line, a line feed behind a backslash,
-- or one inside brackets.
def IsTrivia (depth : Nat) (text rest : List Char) : Prop :=
  (∃ c ∈ [' ', '\t', '\r'], text = [c]) ∨
  (∃ body, text = '#' :: body ∧ '\n' ∉ body ∧ rest.head?.all (· == '\n') = true) ∨
  text = ['\\', '\n'] ∨
  (text = ['\n'] ∧ 0 < depth)

def lexicon : Lexicon := ⟨keywords, operators, isWordChar, IsTrivia⟩

theorem length_operators : ∀ other ∈ operators, 0 < other.length ∧ other.length ≤ 3 := by decide

theorem piece_cuts {depth : Nat} {c : Char} {rest : List Char} {found : Piece}
    (h : piece (0 < depth) c rest = .ok found) : lexicon.Cuts depth (c :: rest) found := by
  unfold piece at h
  split at h
  · rename_i hfeed
    obtain rfl := eq_of_beq hfeed
    cases h
    split
    · rename_i hdepth
      exact ⟨rest, rfl, fun _ => .inr (.inr (.inr ⟨rfl, of_decide_eq_true hdepth⟩))⟩
    · rename_i hdepth
      refine ⟨rest, rfl, fun _ => ⟨?_, rfl, ?_⟩⟩
      · simp [Part.ofPiece]
      · simpa using hdepth
  split at h
  · rename_i hblank
    cases h
    exact ⟨rest, rfl, fun _ => .inl ⟨c, by simpa [or_assoc] using hblank, rfl⟩⟩
  split at h
  · rename_i hmark
    obtain rfl := eq_of_beq hmark
    cases h
    obtain ⟨hbody, hend⟩ := lineEnd rest
    refine ⟨rest.dropWhile (· != '\n'), ?_, fun _ => .inr (.inl ⟨_, rfl, hbody, hend⟩)⟩
    simp [Piece.trivia]
  split at h
  · rename_i hjoin
    simp only [Bool.and_eq_true, beq_iff_eq, List.head?_eq_some_iff] at hjoin
    obtain ⟨rfl, more, rfl⟩ := hjoin
    cases h
    exact ⟨more, rfl, fun _ => .inr (.inr (.inl rfl))⟩
  split at h
  · rename_i hquote
    exact Lexicon.cuts_string (by simpa using hquote) h
  split at h
  · rename_i hquote
    simp only [Bool.and_eq_true, beq_iff_eq, List.head?_eq_some_iff] at hquote
    obtain ⟨rfl, more, rfl⟩ := hquote
    exact Lexicon.cuts_interpolated (by decide) h
  split at h
  · rename_i hquote
    simp only [Bool.and_eq_true, beq_iff_eq, List.head?_eq_some_iff] at hquote
    obtain ⟨rfl, more, rfl⟩ := hquote
    exact Lexicon.cuts_interpolated (by decide) h
  split at h
  · exact Lexicon.cuts_number h
  split at h
  · cases h
    exact Lexicon.cuts_word _
  · exact Lexicon.cuts_operator length_operators h

theorem bracketsAfter_eq (depth : Nat) (found : Piece) (pos : Pos) :
    bracketsAfter depth found = Token.bracketDepth depth (found.tokens pos) := by
  obtain ⟨text, token⟩ := found
  match token with
  | none => rfl
  | some (kind, lexeme) =>
      by_cases hkind : kind = .operator
      · subst hkind
        simp [bracketsAfter, Piece.tokens, Token.bracketDepth, Token.bracketed]
      · simp only [Piece.tokens, Token.bracketDepth, List.foldl_cons, List.foldl_nil,
          Token.bracketed, if_neg hkind]
        unfold bracketsAfter
        split
        · rename_i heq
          cases heq
          exact absurd rfl hkind
        · rfl

-- A part of a text, and the widths of the blocks that are open behind it, innermost first.
structure Step where
  part : Part
  blocks : List Nat

-- The layout of a line of a given width, token by token.
def laid (width : Nat) : List Nat → List Token → List Step
  | _, [] => []
  | blocks, token :: rest =>
      let behind := if token.kind = .indent then width :: blocks else blocks.tail
      ⟨⟨[], some token⟩, behind⟩ :: laid width behind rest

namespace State

-- The blanks that a line starts with.
def blanks (state : State) : List Char :=
  state.cursor.rest.takeWhile fun c => c == ' ' || c == '\t'

-- The start of a line with the given layout: its blanks one by one, and the layout.
def opened (state : State) (layout : List Token) : List Step :=
  state.blanks.map (fun c => ⟨⟨[c], none⟩, state.blocks⟩) ++
    laid (indentWidth state.blanks) state.blocks layout

end State

-- What the lexer does from a state on, part by part.
inductive Reading : State → List Step → Prop
  | ending {state : State} (hrest : state.cursor.rest = []) :
      Reading state
        (laid 0 state.blocks (List.replicate state.blocks.length ⟨.dedent, "", state.cursor.pos⟩) ++
          [⟨⟨[], some ⟨.eof, "", state.cursor.pos⟩⟩, []⟩])
  | piece {state : State} {c : Char} {rest : List Char} {found : Piece} {steps : List Step}
      (hrest : state.cursor.rest = c :: rest)
      (hpiece : piece (0 < state.brackets) c rest = .ok found)
      (htoken : found.token ≠ some (.newline, "\n")) (hbehind : Reading (state.skip found) steps) :
      Reading state (⟨.ofPiece found state.cursor.pos, state.blocks⟩ :: steps)
  | line {state next : State} {c : Char} {rest : List Char} {found : Piece} {layout : List Token}
      {steps : List Step} (hrest : state.cursor.rest = c :: rest)
      (hpiece : piece (0 < state.brackets) c rest = .ok found)
      (htoken : found.token = some (.newline, "\n"))
      (hline : (state.skip found).openLine = .ok (layout, next)) (hbehind : Reading next steps) :
      Reading state (⟨.ofPiece found state.cursor.pos, state.blocks⟩ ::
        ((state.skip found).opened layout ++ steps))

-- The parts of some steps.
def parts (steps : List Step) : List Part := steps.map (·.part)

-- The tokens of some steps.
def tokens (steps : List Step) : List Token := Part.tokensOf (parts steps)

theorem parts_append (steps more : List Step) : parts (steps ++ more) = parts steps ++ parts more :=
  List.map_append

@[simp]
theorem tokens_append (steps more : List Step) : tokens (steps ++ more) = tokens steps ++ tokens more := by
  simp [tokens, parts]

theorem tokens_cons (step : Step) (steps : List Step) :
    tokens (step :: steps) = step.part.token.toList ++ tokens steps := Part.tokensOf_cons _ _

@[simp]
theorem tokens_laid (width : Nat) (blocks : List Nat) (layout : List Token) :
    tokens (laid width blocks layout) = layout := by
  induction layout generalizing blocks with
  | nil => rfl
  | cons token layout ih =>
      rw [laid, tokens_cons, ih]
      rfl

theorem tokens_opened (state : State) (layout : List Token) :
    tokens (state.opened layout) = layout := by
  rw [State.opened, tokens_append, tokens_laid]
  induction state.blanks with
  | nil => rfl
  | cons c blanks ih => rw [List.map_cons, tokens_cons, List.append_assoc, ih]; rfl

theorem lex_of_end (hrest : state.cursor.rest = []) :
    lex state = .ok (List.replicate state.blocks.length ⟨.dedent, "", state.cursor.pos⟩ ++
      [⟨.eof, "", state.cursor.pos⟩]) := by
  unfold lex
  split
  · rfl
  · rename_i hcons
    rw [hrest] at hcons
    cases hcons

-- The lexer finds exactly the tokens of what it does part by part.
theorem lex_eq_ok_iff :
    lex state = .ok found ↔ ∃ steps, Reading state steps ∧ tokens steps = found := by
  constructor
  · intro h
    fun_induction lex state generalizing found with
    | case1 state hrest =>
        cases h
        refine ⟨_, .ending hrest, ?_⟩
        rw [tokens_append, tokens_laid]
        rfl
    | case2 | case3 => cases h
    | case4 state c rest hrest piece hpiece _ htoken layout next hline _ ih =>
        obtain ⟨behind, hlex, hfound⟩ := exists_of_bind_eq_ok h
        cases hfound
        obtain ⟨steps, hreading, rfl⟩ := ih hlex
        refine ⟨_, .line hrest hpiece htoken hline hreading, ?_⟩
        rw [tokens_cons, Part.token_ofPiece, tokens_append, tokens_opened, List.append_assoc]
    | case5 state c rest hrest piece hpiece _ htoken ih =>
        obtain ⟨behind, hlex, hfound⟩ := exists_of_bind_eq_ok h
        cases hfound
        obtain ⟨steps, hreading, rfl⟩ := ih hlex
        refine ⟨_, .piece hrest hpiece htoken hreading, ?_⟩
        rw [tokens_cons, Part.token_ofPiece]
  · rintro ⟨steps, hreading, rfl⟩
    induction hreading with
    | ending hrest =>
        rw [lex_of_end hrest, tokens_append, tokens_laid]
        rfl
    | piece hrest hpiece htoken _ ih =>
        rw [lex_of_piece hrest hpiece htoken ih, tokens_cons, Part.token_ofPiece]
    | line hrest hpiece htoken hline _ ih =>
        rw [lex_of_newline hrest hpiece htoken hline ih, tokens_cons, Part.token_ofPiece,
          tokens_append, tokens_opened, List.append_assoc]

-- What the lexer does with a whole program. The layout of the first line comes first.
inductive Runs (source : String) : List Step → Prop
  | mk {layout : List Token} {next : State} {steps : List Step}
      (hline : State.openLine ⟨.ofText source.toList, [], 0⟩ = .ok (layout, next))
      (hbehind : Reading next steps) :
      Runs source (State.opened ⟨.ofText source.toList, [], 0⟩ layout ++ steps)

theorem tokenize_eq_ok_iff {source : String} :
    tokenize source = .ok found ↔ ∃ steps, Runs source steps ∧ tokens steps = found := by
  constructor
  · intro h
    obtain ⟨⟨layout, next⟩, hline, h⟩ := exists_of_bind_eq_ok h
    obtain ⟨behind, hlex, h⟩ := exists_of_bind_eq_ok h
    cases h
    obtain ⟨steps, hreading, rfl⟩ := lex_eq_ok_iff.mp hlex
    refine ⟨_, ⟨hline, hreading⟩, ?_⟩
    rw [tokens_append, tokens_opened]
  · rintro ⟨steps, ⟨hline, hbehind⟩, rfl⟩
    rw [tokens_append, tokens_opened, tokenize, hline]
    change (lex _ >>= fun tokens => pure (_ ++ tokens)) = _
    rw [lex_eq_ok_iff.mpr ⟨_, hbehind, rfl⟩]
    rfl

section Lines

variable {layout : List Token} {state next : State} {token : Token}

-- What the start of a line does: it moves over its blanks, and opens one block or leaves some.
structure Opens (state : State) (layout : List Token) (next : State) : Prop where
  cursor : next.cursor = state.cursor.skip state.blanks
  brackets : next.brackets = state.brackets
  layout :
    (state.blocks.headD 0 < indentWidth state.blanks ∧
      layout = [⟨.indent, toString (indentWidth state.blanks), next.cursor.pos⟩] ∧
      next.blocks = indentWidth state.blanks :: state.blocks) ∨
    (∃ left, state.blocks = left ++ next.blocks ∧
      layout = List.replicate left.length ⟨.dedent, "", next.cursor.pos⟩)

theorem relayout_cases {blocks inner : List Nat} {width : Nat} {layout : List (TokenKind × String)}
    (h : relayout blocks width = .ok (layout, inner)) :
    (blocks.headD 0 < width ∧ layout = [(.indent, toString width)] ∧ inner = width :: blocks) ∨
    (∃ left, blocks = left ++ inner ∧ layout = List.replicate left.length (.dedent, "")) := by
  unfold relayout at h
  split at h
  · rename_i hlt
    cases h
    exact .inl ⟨hlt, rfl, rfl⟩
  · dsimp only at h
    split at h
    · cases h
      refine .inr ⟨blocks.takeWhile (width < ·), List.takeWhile_append_dropWhile.symm, ?_⟩
      have hlength := congrArg List.length
        (List.takeWhile_append_dropWhile (p := fun outer => decide (width < outer)) (l := blocks))
      rw [List.length_append] at hlength
      congr 1
      omega
    · cases h

theorem opens_of_openLine (h : state.openLine = .ok (layout, next)) : Opens state layout next := by
  unfold State.openLine at h
  dsimp only at h
  split at h
  · cases h
    exact ⟨rfl, rfl, .inr ⟨[], rfl, rfl⟩⟩
  · split at h
    · cases h
    · rename_i kinds blocks hlayout
      cases h
      refine ⟨rfl, rfl, ?_⟩
      rcases relayout_cases hlayout with ⟨hlt, rfl, rfl⟩ | ⟨left, hleft, rfl⟩
      · exact .inl ⟨hlt, rfl, rfl⟩
      · exact .inr ⟨left, hleft, List.map_replicate⟩

theorem Opens.kind_of_mem (h : Opens state layout next) (hmem : token ∈ layout) :
    token.kind = .indent ∨ token.kind = .dedent := by
  rcases h.layout with ⟨-, rfl, -⟩ | ⟨left, -, rfl⟩
  · rw [List.mem_singleton.mp hmem]
    exact .inl rfl
  · rw [List.eq_of_mem_replicate hmem]
    exact .inr rfl

-- Every token but the layout and the end is that of a piece.
theorem exists_piece_of_reading {steps : List Step} (h : Reading state steps)
    (hmem : token ∈ tokens steps) :
    token.kind ∈ [.indent, .dedent, .eof] ∨
      ∃ inBrackets c rest found pos,
        piece inBrackets c rest = .ok found ∧ token ∈ found.tokens pos := by
  induction h with
  | ending hrest =>
      rw [tokens_append, tokens_laid] at hmem
      rcases List.mem_append.mp hmem with hmem | hmem
      · exact .inl (by simp [List.eq_of_mem_replicate hmem])
      · exact .inl (by simp [List.mem_singleton.mp hmem])
  | @piece state c rest found steps hrest hpiece htoken _ ih =>
      rw [tokens_cons, Part.token_ofPiece] at hmem
      rcases List.mem_append.mp hmem with hmem | hmem
      · exact .inr ⟨_, c, rest, found, _, hpiece, hmem⟩
      · exact ih hmem
  | @line state next c rest found layout steps hrest hpiece htoken hline _ ih =>
      rw [tokens_cons, Part.token_ofPiece, tokens_append, tokens_opened] at hmem
      rcases List.mem_append.mp hmem with hmem | hmem
      · exact .inr ⟨_, c, rest, found, _, hpiece, hmem⟩
      · rcases List.mem_append.mp hmem with hmem | hmem
        · rcases (opens_of_openLine hline).kind_of_mem hmem with hkind | hkind
          · exact .inl (by simp [hkind])
          · exact .inl (by simp [hkind])
        · exact ih hmem

end Lines

section Covering

variable {cursor : Cursor} {depth : Nat} {parts : List Part} {layout : List Token} {state : State}
  {steps : List Step}

theorem covers_blanks {blanks : List Char} (hblanks : ∀ c ∈ blanks, c = ' ' ∨ c = '\t')
    (hfront : blanks <+: cursor.rest) (h : Part.Covers lexicon (cursor.skip blanks) depth parts) :
    Part.Covers lexicon cursor depth (blanks.map (fun c => ⟨[c], none⟩) ++ parts) := by
  induction blanks generalizing cursor with
  | nil => exact h
  | cons c blanks ih =>
      obtain ⟨rest, hrest⟩ := hfront
      have hskip : cursor.skip (c :: blanks) = (cursor.skip [c]).skip blanks := by
        simp [Cursor.skip]
      rw [hskip] at h
      have hcuts : lexicon.Cuts depth cursor.rest (.trivia [c]) := by
        refine ⟨blanks ++ rest, hrest.symm, fun _ => .inl ⟨c, ?_, rfl⟩⟩
        rcases hblanks c (.head _) with rfl | rfl <;> simp
      refine Part.Covers.piece hcuts (ih (fun d hd => hblanks d (.tail _ hd)) ⟨rest, ?_⟩ h)
      simp [Cursor.skip, Piece.trivia, ← hrest]

theorem covers_laid (width : Nat) (blocks : List Nat) (hlayout : ∀ token ∈ layout,
      (token.kind = .indent ∨ token.kind = .dedent) ∧ token.pos = cursor.pos)
    (h : Part.Covers lexicon cursor depth parts) :
    Part.Covers lexicon cursor depth (Indented.parts (laid width blocks layout) ++ parts) := by
  induction layout generalizing blocks with
  | nil => exact h
  | cons token layout ih =>
      obtain ⟨hkind, hpos⟩ := hlayout token (.head _)
      have hrest := ih (if token.kind = .indent then width :: blocks else blocks.tail)
        fun other hother => hlayout other (.tail _ hother)
      have hdepth : Token.bracketDepth depth [token] = depth := by
        rcases hkind with hkind | hkind <;> simp [Token.bracketDepth, Token.bracketed, hkind]
      refine ⟨hrest.text, Part.Tiles.cons ?_ ?_ ?_⟩
      · rcases hkind with hkind | hkind <;> simp [Lexicon.Says, Lexicon.Spells, hkind]
      · rintro _ ⟨⟩
        exact hpos
      · exact hdepth.symm ▸ hrest.tiles

theorem Opens.covers {next : State} (hopens : Opens state layout next)
    (h : Part.Covers lexicon next.cursor next.brackets parts) :
    Part.Covers lexicon state.cursor state.brackets
      (Indented.parts (state.opened layout) ++ parts) := by
  have hblanks : ∀ c ∈ state.blanks, c = ' ' ∨ c = '\t' := by
    intro c hc
    simpa using List.all_eq_true.mp List.all_takeWhile c hc
  have hlayout : ∀ token ∈ layout,
      (token.kind = .indent ∨ token.kind = .dedent) ∧ token.pos = next.cursor.pos := by
    intro token htoken
    refine ⟨hopens.kind_of_mem htoken, ?_⟩
    rcases hopens.layout with ⟨-, rfl, -⟩ | ⟨left, -, rfl⟩
    · rw [List.mem_singleton.mp htoken]
    · rw [List.eq_of_mem_replicate htoken]
  have hlaid := covers_laid (indentWidth state.blanks) state.blocks hlayout h
  rw [hopens.cursor, hopens.brackets] at hlaid
  have hcovers := covers_blanks hblanks (List.takeWhile_prefix _) hlaid
  simpa [Indented.parts, State.opened, Function.comp_def] using hcovers

-- The parts of what the lexer does cover what it reads.
theorem Reading.covers (h : Reading state steps) :
    Part.Covers lexicon state.cursor state.brackets (Indented.parts steps) := by
  induction h with
  | @ending state hrest =>
      have hlayout : ∀ token ∈ List.replicate state.blocks.length
          (⟨.dedent, "", state.cursor.pos⟩ : Token),
          (token.kind = .indent ∨ token.kind = .dedent) ∧ token.pos = state.cursor.pos := by
        intro token htoken
        simp [List.eq_of_mem_replicate htoken]
      rw [parts_append]
      exact covers_laid 0 state.blocks hlayout (Part.covers_eof hrest)
  | @piece state c rest found steps hrest hpiece htoken _ ih =>
      refine Part.Covers.piece (hrest ▸ piece_cuts hpiece) ?_
      rw [← bracketsAfter_eq]
      exact ih
  | @line state next c rest found layout steps hrest hpiece htoken hline _ ih =>
      have hcovers := (opens_of_openLine hline).covers ih
      refine Part.Covers.piece (hrest ▸ piece_cuts hpiece) ?_
      rw [← bracketsAfter_eq, ← Indented.parts, parts_append]
      exact hcovers

theorem Runs.covers {source : String} (h : Runs source steps) :
    Part.Covers lexicon (.ofText source.toList) 0 (Indented.parts steps) := by
  obtain ⟨hline, hbehind⟩ := h
  rw [parts_append]
  exact (opens_of_openLine hline).covers hbehind.covers

end Covering

end Diglot.Indented
