import Diglot.Proofs.Indented.Collapse
import Diglot.Proofs.Indented.Lines

namespace Diglot

namespace Pos

-- A text moves a place down, or along its line.
theorem after_cases (pos : Pos) (text : List Char) :
    pos.line < (pos.after text).line ∨
      ((pos.after text).line = pos.line ∧ (pos.after text).column = pos.column + text.length) := by
  induction text generalizing pos with
  | nil => exact .inr ⟨rfl, rfl⟩
  | cons c text ih =>
      have hnext := ih (pos.next c)
      rw [after_cons, List.length_cons]
      by_cases hc : c = '\n'
      · simp only [next, hc, if_true] at hnext ⊢
        omega
      · simp only [next, hc, if_false] at hnext ⊢
        omega

-- A place in a text tells what stands in front of it.
theorem after_inj {pos : Pos} {text front other : List Char} (hfront : front <+: text)
    (hother : other <+: text) (h : pos.after front = pos.after other) : front = other := by
  have hnil : ∀ {pos : Pos} {more : List Char}, pos = pos.after more → more = [] := by
    intro pos more hself
    have hcases := after_cases pos more
    rw [← hself] at hcases
    exact List.eq_nil_of_length_eq_zero (by omega)
  rcases List.prefix_or_prefix_of_prefix hfront hother with ⟨more, rfl⟩ | ⟨more, rfl⟩
  · rw [after_append] at h
    rw [hnil h, List.append_nil]
  · rw [after_append] at h
    rw [hnil h.symm, List.append_nil]

end Pos

namespace Indented

section Emitted

variable {tokens layout : List Token} {state next : State} {found : Piece} {pos : Pos}
  {token : Token}

-- From a state on, the lexer makes a token, whether it comes to the end of the text or not.
inductive Emits : State → Token → Prop
  | ending {state : State} {token : Token} (hrest : state.cursor.rest = [])
      (hmem : token ∈ List.replicate state.blocks.length ⟨.dedent, "", state.cursor.pos⟩ ++
        [⟨.eof, "", state.cursor.pos⟩]) : Emits state token
  | here {state : State} {c : Char} {rest : List Char} {found : Piece} {token : Token}
      (hrest : state.cursor.rest = c :: rest)
      (hpiece : piece (0 < state.brackets) c rest = .ok found)
      (hmem : token ∈ found.tokens state.cursor.pos) : Emits state token
  | piece {state : State} {c : Char} {rest : List Char} {found : Piece} {token : Token}
      (hrest : state.cursor.rest = c :: rest)
      (hpiece : piece (0 < state.brackets) c rest = .ok found)
      (htoken : found.token ≠ some (.newline, "\n")) (hbehind : Emits (state.skip found) token) :
      Emits state token
  | layout {state next : State} {c : Char} {rest : List Char} {found : Piece} {layout : List Token}
      {token : Token} (hrest : state.cursor.rest = c :: rest)
      (hpiece : piece (0 < state.brackets) c rest = .ok found)
      (htoken : found.token = some (.newline, "\n"))
      (hline : (state.skip found).openLine = .ok (layout, next)) (hmem : token ∈ layout) :
      Emits state token
  | line {state next : State} {c : Char} {rest : List Char} {found : Piece} {layout : List Token}
      {token : Token} (hrest : state.cursor.rest = c :: rest)
      (hpiece : piece (0 < state.brackets) c rest = .ok found)
      (htoken : found.token = some (.newline, "\n"))
      (hline : (state.skip found).openLine = .ok (layout, next)) (hbehind : Emits next token) :
      Emits state token

-- The lexer makes a token of a program, whether or not it fails later on.
def Emitted (source : String) (token : Token) : Prop :=
  ∃ layout next, State.openLine ⟨.ofText source.toList, [], 0⟩ = .ok (layout, next) ∧
    (token ∈ layout ∨ Emits next token)

theorem exists_of_map_eq_ok {x : Except Failure (List Token)} {front : List Token}
    (h : x.map (front ++ ·) = .ok tokens) :
    ∃ behind, x = .ok behind ∧ tokens = front ++ behind := by
  cases x with
  | error failure => cases h
  | ok behind => exact ⟨behind, rfl, (Except.ok.inj h).symm⟩

-- Where the lexer does not fail, it makes the tokens that it gives.
theorem emits_iff_mem (h : lex state = .ok tokens) (token : Token) :
    Emits state token ↔ token ∈ tokens := by
  constructor
  · intro hemits
    induction hemits generalizing tokens with
    | ending hrest hmem =>
        rw [lex_of_end hrest] at h
        cases h
        exact hmem
    | @here state c rest found token hrest hpiece hmem =>
        by_cases htoken : found.token = some (.newline, "\n")
        · rw [lex_eq_line hrest hpiece htoken] at h
          obtain ⟨behind, -, rfl⟩ := exists_of_map_eq_ok h
          exact List.mem_append_left _ hmem
        · rw [lex_eq_piece hrest hpiece htoken] at h
          obtain ⟨behind, -, rfl⟩ := exists_of_map_eq_ok h
          exact List.mem_append_left _ hmem
    | piece hrest hpiece htoken _ ih =>
        rw [lex_eq_piece hrest hpiece htoken] at h
        obtain ⟨behind, hbehind, rfl⟩ := exists_of_map_eq_ok h
        exact List.mem_append_right _ (ih hbehind)
    | layout hrest hpiece htoken hline hmem =>
        rw [lex_eq_line hrest hpiece htoken, lexLine_of_openLine hline] at h
        obtain ⟨behind, hbehind, rfl⟩ := exists_of_map_eq_ok h
        obtain ⟨more, -, rfl⟩ := exists_of_map_eq_ok hbehind
        exact List.mem_append_right _ (List.mem_append_left _ hmem)
    | line hrest hpiece htoken hline _ ih =>
        rw [lex_eq_line hrest hpiece htoken, lexLine_of_openLine hline] at h
        obtain ⟨behind, hbehind, rfl⟩ := exists_of_map_eq_ok h
        obtain ⟨more, hmore, rfl⟩ := exists_of_map_eq_ok hbehind
        exact List.mem_append_right _ (List.mem_append_right _ (ih hmore))
  · intro hmem
    obtain ⟨steps, hreading, rfl⟩ := lex_eq_ok_iff.mp h
    clear h
    induction hreading with
    | ending hrest =>
        rw [tokens_append, tokens_laid] at hmem
        exact .ending hrest hmem
    | piece hrest hpiece htoken _ ih =>
        rw [tokens_cons, Part.token_ofPiece] at hmem
        rcases List.mem_append.mp hmem with hmem | hmem
        · exact .here hrest hpiece hmem
        · exact .piece hrest hpiece htoken (ih hmem)
    | line hrest hpiece htoken hline _ ih =>
        rw [tokens_cons, Part.token_ofPiece, tokens_append, tokens_opened] at hmem
        rcases List.mem_append.mp hmem with hmem | hmem
        · exact .here hrest hpiece hmem
        · rcases List.mem_append.mp hmem with hmem | hmem
          · exact .layout hrest hpiece htoken hline hmem
          · exact .line hrest hpiece htoken hline (ih hmem)

theorem emitted_iff_mem {source : String} (h : tokenize source = .ok tokens) (token : Token) :
    Emitted source token ↔ token ∈ tokens := by
  obtain ⟨⟨layout, next⟩, hline, h⟩ := exists_of_bind_eq_ok h
  obtain ⟨behind, hlex, h⟩ := exists_of_bind_eq_ok h
  cases h
  rw [List.mem_append, ← emits_iff_mem hlex]
  constructor
  · rintro ⟨layout', next', hline', htoken⟩
    rw [hline] at hline'
    cases hline'
    exact htoken
  · exact fun htoken => ⟨layout, next, hline, htoken⟩

theorem prefix_of_piece {c : Char} {rest : List Char} (hrest : state.cursor.rest = c :: rest)
    (hpiece : Indented.piece (0 < state.brackets) c rest = .ok found) :
    state.cursor.rest = found.text ++ (state.skip found).cursor.rest := by
  obtain ⟨more, hmore, -⟩ := piece_cuts hpiece
  rw [hrest, hmore]
  simp [State.skip, Cursor.skip, hrest, hmore]

theorem prefix_of_openLine (h : state.openLine = .ok (layout, next)) :
    state.cursor.rest = state.blanks ++ next.cursor.rest ∧
      next.cursor.pos = state.cursor.pos.after state.blanks := by
  have hopens := opens_of_openLine h
  rw [hopens.cursor]
  refine ⟨?_, rfl⟩
  obtain ⟨more, hmore⟩ : state.blanks <+: state.cursor.rest := List.takeWhile_prefix _
  rw [← hmore]
  simp [Cursor.skip, ← hmore]

theorem pos_of_mem_tokens (h : token ∈ found.tokens pos) : token.pos = pos := by
  unfold Piece.tokens at h
  split at h
  · cases h
  · rw [List.mem_singleton.mp h]

theorem ne_newline_of_mem_layout (h : state.openLine = .ok (layout, next)) (hmem : token ∈ layout) :
    token.kind ≠ .newline := by
  rcases (opens_of_openLine h).layout with ⟨-, rfl, -⟩ | ⟨left, -, rfl⟩
  · rw [List.mem_singleton.mp hmem]
    simp
  · rw [List.eq_of_mem_replicate hmem]
    simp

theorem ne_newline_of_mem_ending {depth : Nat}
    (hmem : token ∈ List.replicate depth ⟨.dedent, "", pos⟩ ++ [⟨.eof, "", pos⟩]) :
    token.kind ≠ .newline := by
  rcases List.mem_append.mp hmem with hmem | hmem
  · rw [List.eq_of_mem_replicate hmem]
    simp
  · rw [List.mem_singleton.mp hmem]
    simp

-- A place in the text that the lexer has yet to read.
def State.Sees (state : State) (pos : Pos) : Prop :=
  ∃ passed, passed <+: state.cursor.rest ∧ pos = state.cursor.pos.after passed

theorem State.sees_of_append {start : List Char}
    (htext : state.cursor.rest = start ++ next.cursor.rest)
    (hstart : next.cursor.pos = state.cursor.pos.after start) (h : next.Sees pos) :
    state.Sees pos := by
  obtain ⟨passed, hpassed, hpos⟩ := h
  refine ⟨start ++ passed, ?_, ?_⟩
  · rw [htext]
    exact (List.prefix_append_right_inj _).mpr hpassed
  · rw [hpos, hstart, Pos.after_append]

-- A line feed stands in the text that the lexer has yet to read.
theorem Emits.sees (h : Emits state token) (hkind : token.kind = .newline) :
    state.Sees token.pos := by
  induction h with
  | ending _ hmem => exact absurd hkind (ne_newline_of_mem_ending hmem)
  | here _ _ hmem => exact ⟨[], List.nil_prefix, pos_of_mem_tokens hmem⟩
  | piece hrest hpiece _ _ ih =>
      exact State.sees_of_append (prefix_of_piece hrest hpiece) rfl (ih hkind)
  | layout _ _ _ hline hmem => exact absurd hkind (ne_newline_of_mem_layout hline hmem)
  | line hrest hpiece _ hline _ ih =>
      obtain ⟨htext, hstart⟩ := prefix_of_openLine hline
      exact State.sees_of_append (prefix_of_piece hrest hpiece) rfl
        (State.sees_of_append htext hstart (ih hkind))

end Emitted

section Insertion

variable {line front behind : List Char} {state next : State} {pos : Pos}

-- A line without a token: blanks, and perhaps a comment behind them.
def IsBlankLine (line : List Char) : Prop :=
  ∃ blanks comment, line = blanks ++ comment ++ ['\n'] ∧ (∀ c ∈ blanks, c = ' ' ∨ c = '\t') ∧
    (comment = [] ∨ ∃ text, comment = '#' :: text ∧ '\n' ∉ text)

theorem lexLine_of_blank {blanks rest : List Char} (hblanks : ∀ c ∈ blanks, c = ' ' ∨ c = '\t')
    (hrest : State.lineIsBlank rest = true) (pos : Pos) (blocks : List Nat) :
    lexLine ⟨⟨pos, blanks ++ rest⟩, blocks, 0⟩ = lex ⟨⟨pos.after blanks, rest⟩, blocks, 0⟩ := by
  have hhead : rest.head?.any (fun c => c == ' ' || c == '\t') = false := by
    cases rest with
    | nil => rfl
    | cons c rest =>
        simp only [State.lineIsBlank, Bool.or_eq_true, beq_iff_eq] at hrest
        rcases hrest with (rfl | rfl) | rfl <;> rfl
  have htake : (blanks ++ rest).takeWhile (fun c => c == ' ' || c == '\t') = blanks := by
    rw [takeWhile_append_of_head hhead]
    exact List.takeWhile_eq_self_iff.mpr fun c hc => by simpa using hblanks c hc
  have hlayout : layoutOf blocks (blanks ++ rest) = .ok ([], blocks) := by
    simp [layoutOf, htake, hrest]
  have hskip : (State.mk ⟨pos, blanks ++ rest⟩ blocks 0).blanks = blanks := htake
  rw [lexLine_of_layoutOf hlayout]
  dsimp only
  rw [hskip, Cursor.skip_append]
  cases lex ⟨⟨pos.after blanks, rest⟩, blocks, 0⟩ <;> rfl

theorem lex_comment {text : List Char} (htext : '\n' ∉ text) (pos : Pos) (rest : List Char)
    (blocks : List Nat) : lex ⟨⟨pos, '#' :: text ++ '\n' :: rest⟩, blocks, 0⟩ =
      lex ⟨⟨pos.after ('#' :: text), '\n' :: rest⟩, blocks, 0⟩ := by
  have htake : (text ++ '\n' :: rest).takeWhile (· != '\n') = text := by
    rw [takeWhile_append_of_head (by simp)]
    exact List.takeWhile_eq_self_iff.mpr fun c hc => by
      rw [bne_iff_ne]
      rintro rfl
      exact htext hc
  have hpiece : Indented.piece (0 < 0) '#' (text ++ '\n' :: rest) = .ok (.trivia ('#' :: text)) := by
    unfold Indented.piece
    simp [htake]
  have hskip : State.skip ⟨⟨pos, '#' :: text ++ '\n' :: rest⟩, blocks, 0⟩ (.trivia ('#' :: text)) =
      ⟨⟨pos.after ('#' :: text), '\n' :: rest⟩, blocks, 0⟩ := by
    rw [State.skip, Piece.trivia, Cursor.skip_append]
    rfl
  rw [List.cons_append, lex_eq_piece rfl hpiece (by simp [Piece.trivia]), ← List.cons_append, hskip]
  cases lex ⟨⟨pos.after ('#' :: text), '\n' :: rest⟩, blocks, 0⟩ <;> rfl

-- Such a line is made into a line feed, and leaves the open blocks alone.
theorem lexLine_blankLine (hline : IsBlankLine line) (pos : Pos) (text : List Char)
    (blocks : List Nat) :
    ∃ place, lexLine ⟨⟨pos, line ++ text⟩, blocks, 0⟩ =
      (lexLine ⟨⟨pos.after line, text⟩, blocks, 0⟩).map ([⟨.newline, "\n", place⟩] ++ ·) := by
  obtain ⟨blanks, comment, rfl, hblanks, hcomment⟩ := hline
  refine ⟨(pos.after blanks).after comment, ?_⟩
  rw [List.append_assoc, List.append_assoc, List.singleton_append, Pos.after_append,
    Pos.after_append, ← lex_feed]
  rcases hcomment with rfl | ⟨body, rfl, hbody⟩
  · exact lexLine_of_blank hblanks rfl pos blocks
  · rw [lexLine_of_blank hblanks rfl, lex_comment hbody]

-- Behind a line feed such a line does not show.
theorem collapsed_blankLine (hline : IsBlankLine line) (pos : Pos) (text : List Char)
    (blocks : List Nat) :
    collapsed true (lex ⟨⟨pos, '\n' :: (line ++ text)⟩, blocks, 0⟩) =
      collapsed true (lex ⟨⟨pos, '\n' :: text⟩, blocks, 0⟩) := by
  obtain ⟨place, hblank⟩ := lexLine_blankLine hline (pos.after ['\n']) text blocks
  rw [lex_feed, lex_feed, hblank, collapsed_feed rfl rfl]
  exact collapsed_map_append rfl (collapsed_of_placeless (placeless_lexLine _ _ _ _ _))

theorem blanks_feed (line more other : List Char) :
    (line ++ '\n' :: more).takeWhile (fun c => c == ' ' || c == '\t') =
      (line ++ '\n' :: other).takeWhile (fun c => c == ' ' || c == '\t') := by
  rw [takeWhile_append_of_head (by rfl), takeWhile_append_of_head (by rfl)]

theorem layoutOf_feed (blocks : List Nat) (line more other : List Char) :
    layoutOf blocks (line ++ '\n' :: more) = layoutOf blocks (line ++ '\n' :: other) := by
  have hlength : (line.takeWhile (fun c => c == ' ' || c == '\t')).length ≤ line.length :=
    (List.takeWhile_prefix _).length_le
  have hblank : ∀ rest : List Char, State.lineIsBlank (rest ++ '\n' :: more) =
      State.lineIsBlank (rest ++ '\n' :: other) := by
    intro rest
    cases rest <;> rfl
  unfold layoutOf
  dsimp only
  rw [blanks_feed line more other, takeWhile_append_of_head (by rfl),
    List.drop_append_of_le_length hlength, List.drop_append_of_le_length hlength, hblank]

namespace State

-- The state with another text ahead.
def onto (state : State) (rest : List Char) : State :=
  { state with cursor := { state.cursor with rest } }

variable {state : State} {front behind passed : List Char}

-- A piece that ends in front of a line feed is found as well where other text follows that.
theorem onto_piece {c : Char} {rest : List Char} {found : Piece}
    (hcons : state.cursor.rest = c :: rest)
    (hpiece : Indented.piece (0 < state.brackets) c rest = .ok found)
    (hrest : state.cursor.rest = found.text ++ passed ++ '\n' :: behind) (other : List Char) :
    ∃ rest', (state.onto (found.text ++ passed ++ '\n' :: other)).cursor.rest = c :: rest' ∧
      Indented.piece (0 < state.brackets) c rest' = .ok found ∧
      (state.onto (found.text ++ passed ++ '\n' :: other)).skip found =
        (state.skip found).onto (passed ++ '\n' :: other) := by
  cases htext : found.text with
  | nil => exact absurd htext (piece_ne_nil hpiece)
  | cons d more =>
      rw [hcons, htext] at hrest
      simp only [List.cons_append, List.cons.injEq] at hrest
      obtain ⟨rfl, rfl⟩ := hrest
      refine ⟨more ++ passed ++ '\n' :: other, rfl, ?_, ?_⟩
      · exact piece_within hpiece (by simp [htext]) other
      · simp [onto, skip, Cursor.skip, htext]

end State

-- Where a place is still ahead behind the start of a text, what stands in front of it is that start
-- and more.
theorem front_split {start : List Char} (htext : state.cursor.rest = start ++ next.cursor.rest)
    (hstart : next.cursor.pos = state.cursor.pos.after start) (h : next.Sees pos)
    (hrest : state.cursor.rest = front ++ '\n' :: behind)
    (hpos : pos = state.cursor.pos.after front) :
    ∃ passed, front = start ++ passed ∧ next.cursor.rest = passed ++ '\n' :: behind ∧
      pos = next.cursor.pos.after passed := by
  obtain ⟨passed, hpassed, hplace⟩ := h
  have hfront : start ++ passed <+: state.cursor.rest :=
    htext ▸ (List.prefix_append_right_inj _).mpr hpassed
  have hsame : state.cursor.pos.after front = state.cursor.pos.after (start ++ passed) := by
    rw [← hpos, hplace, hstart, Pos.after_append]
  obtain rfl := Pos.after_inj ⟨_, hrest.symm⟩ hfront hsame
  rw [htext, List.append_assoc] at hrest
  exact ⟨passed, rfl, List.append_cancel_left hrest, hplace⟩

-- What stands behind a line feed that is still ahead does not steer how a line starts.
theorem collapsed_lexLine_onto {layout : List Token} {other : List Char}
    (hopen : state.openLine = .ok (layout, next)) (hsees : next.Sees pos)
    (ih : ∀ passed, next.cursor.rest = passed ++ '\n' :: behind → pos = next.cursor.pos.after passed →
      collapsed true (lex (next.onto (passed ++ '\n' :: other))) = collapsed true (lex next))
    (hrest : state.cursor.rest = front ++ '\n' :: behind)
    (hpos : pos = state.cursor.pos.after front) :
    collapsed true (lexLine (state.onto (front ++ '\n' :: other))) = collapsed true (lexLine state) := by
  obtain ⟨htext, hstart⟩ := prefix_of_openLine hopen
  obtain ⟨passed, rfl, hpassed, hplace⟩ := front_split htext hstart hsees hrest hpos
  have hblanks : (state.onto (state.blanks ++ passed ++ '\n' :: other)).blanks = state.blanks := by
    have hfeed := blanks_feed (state.blanks ++ passed) other behind
    rw [← hrest] at hfeed
    exact hfeed
  have hskip : (state.onto (state.blanks ++ passed ++ '\n' :: other)).cursor.skip state.blanks =
      ⟨(state.cursor.skip state.blanks).pos, passed ++ '\n' :: other⟩ := by
    simp [State.onto, Cursor.skip]
  cases hlayout : layoutOf state.blocks state.cursor.rest with
  | error cause =>
      rw [openLine_of_error hlayout] at hopen
      cases hopen
  | ok found =>
      have hother : layoutOf state.blocks (state.blanks ++ passed ++ '\n' :: other) = .ok found := by
        rw [← hlayout, hrest]
        exact layoutOf_feed _ _ _ _
      rw [openLine_of_layoutOf hlayout] at hopen
      cases hopen
      rw [lexLine_of_layoutOf hother, lexLine_of_layoutOf hlayout, hblanks, hskip]
      exact collapsed_map_append rfl (ih passed hpassed hplace)

-- A line without a token behind a line feed does not show.
theorem collapsed_lex_insert (hline : IsBlankLine line) {token : Token} (h : Emits state token)
    (hkind : token.kind = .newline) (hrest : state.cursor.rest = front ++ '\n' :: behind)
    (hpos : token.pos = state.cursor.pos.after front) :
    collapsed true (lex (state.onto (front ++ '\n' :: (line ++ behind)))) =
      collapsed true (lex state) := by
  induction h generalizing front with
  | ending _ hmem => exact absurd hkind (ne_newline_of_mem_ending hmem)
  | @here state c rest found token hcons hpiece hmem =>
      have hplace : state.cursor.pos.after front = state.cursor.pos.after [] :=
        hpos.symm.trans (pos_of_mem_tokens hmem)
      obtain rfl := Pos.after_inj ⟨_, hrest.symm⟩ List.nil_prefix hplace
      obtain ⟨⟨pos, text⟩, blocks, brackets⟩ := state
      obtain rfl : text = '\n' :: behind := hrest
      obtain ⟨rfl, rfl⟩ := List.cons.inj hcons
      cases brackets with
      | succ brackets =>
          cases hpiece
          cases hmem
      | zero => exact collapsed_blankLine hline pos behind blocks
  | piece hcons hpiece htoken hbehind ih =>
      obtain ⟨passed, rfl, hskip, hplace⟩ :=
        front_split (prefix_of_piece hcons hpiece) rfl (hbehind.sees hkind) hrest hpos
      obtain ⟨rest', hcons', hpiece', hskip'⟩ :=
        State.onto_piece hcons hpiece hrest (line ++ behind)
      rw [lex_eq_piece hcons' hpiece' htoken, lex_eq_piece hcons hpiece htoken, hskip']
      exact collapsed_map_append rfl (ih hkind hskip hplace)
  | layout _ _ _ hopen hmem => exact absurd hkind (ne_newline_of_mem_layout hopen hmem)
  | line hcons hpiece htoken hopen hbehind ih =>
      obtain ⟨htext, hstart⟩ := prefix_of_openLine hopen
      have hsees := State.sees_of_append htext hstart (hbehind.sees hkind)
      obtain ⟨passed, rfl, hskip, hplace⟩ :=
        front_split (prefix_of_piece hcons hpiece) rfl hsees hrest hpos
      obtain ⟨rest', hcons', hpiece', hskip'⟩ :=
        State.onto_piece hcons hpiece hrest (line ++ behind)
      rw [lex_eq_line hcons' hpiece' htoken, lex_eq_line hcons hpiece htoken, hskip']
      refine collapsed_map_append rfl ?_
      exact collapsed_lexLine_onto hopen (hbehind.sees hkind) (fun _ => ih hkind) hskip hplace

end Insertion

-- A program's text ends with a line feed that the lexer makes a token of, or it is empty.
def EndsLine (front behind : String) : Prop :=
  front = "" ∨ ∃ line token, front = line ++ "\n" ∧ Emitted (front ++ behind) token ∧
    token.kind = .newline ∧ token.pos = .behind line.toList

theorem collapsed_tokenize_insert {front line behind : String} (hfront : EndsLine front behind)
    (hline : IsBlankLine line.toList) :
    (collapsed true (tokenize (front ++ line ++ behind))).map (·.dropWhile (·.kind == .newline)) =
      (collapsed true (tokenize (front ++ behind))).map (·.dropWhile (·.kind == .newline)) := by
  rcases hfront with rfl | ⟨last, token, rfl, ⟨layout, next, hopen, hemits⟩, hkind, hpos⟩
  · have htext : ("" ++ line ++ behind).toList = line.toList ++ behind.toList := by simp
    have hself : "" ++ behind = behind := by simp
    obtain ⟨place, hblank⟩ := lexLine_blankLine hline .start behind.toList []
    change (collapsed true (lexLine ⟨⟨.start, _⟩, [], 0⟩)).map _ =
      (collapsed true (lexLine ⟨⟨.start, _⟩, [], 0⟩)).map _
    rw [htext, hself, hblank, collapsed_feeds rfl]
    rw [collapsed_of_placeless (placeless_lexLine behind.toList [] 0 _ .start)]
  · rcases hemits with hlayout | hemits
    · exact absurd hkind (ne_newline_of_mem_layout hopen hlayout)
    · have htext : (last ++ "\n" ++ behind).toList = last.toList ++ '\n' :: behind.toList := by simp
      have hother : (last ++ "\n" ++ line ++ behind).toList =
          last.toList ++ '\n' :: (line.toList ++ behind.toList) := by simp
      rw [Cursor.ofText, htext] at hopen
      have hinsert := collapsed_lexLine_onto hopen (hemits.sees hkind)
        (fun _ => collapsed_lex_insert hline hemits hkind) rfl (hpos.trans (Pos.after_start _).symm)
      change (collapsed true (lexLine ⟨⟨.start, _⟩, [], 0⟩)).map _ =
        (collapsed true (lexLine ⟨⟨.start, _⟩, [], 0⟩)).map _
      rw [htext, hother]
      exact congrArg _ hinsert

end Indented

-- Lines without tokens can be put between any two lines.
theorem parse_insert_blankLine {front line behind : String}
    (hfront : Indented.EndsLine front behind) (hline : Indented.IsBlankLine line.toList) :
    placeless (parse .pythonScript (front ++ line ++ behind)) =
      placeless (parse .pythonScript (front ++ behind)) :=
  placeless_eq_of_outcome (Indented.outcome_parse_source
    (Indented.collapsed_tokenize_insert hfront hline))

-- A comment between the head of a block and its first line.
theorem parse_insert_blankLine_inBlock :
    placeless (parse .pythonScript ("if a:\n" ++ "\t # note\n" ++ "  b\n")) =
        placeless (parse .pythonScript ("if a:\n" ++ "  b\n")) ∧
      (parse .pythonScript ("if a:\n" ++ "  b\n")).toOption.map (·.body.length) = some 1 := by
  have hmem : (Indented.tokenize ("if a:\n" ++ "  b\n")).toOption.any
      (fun tokens => ⟨.newline, "\n", ⟨1, 6⟩⟩ ∈ tokens) = true := by decide +kernel
  have hemitted : Indented.Emitted ("if a:\n" ++ "  b\n") ⟨.newline, "\n", ⟨1, 6⟩⟩ := by
    cases htokens : Indented.tokenize ("if a:\n" ++ "  b\n") with
    | error failure =>
        rw [htokens] at hmem
        cases hmem
    | ok tokens =>
        rw [htokens] at hmem
        exact (Indented.emitted_iff_mem htokens _).mpr (of_decide_eq_true hmem)
  refine ⟨parse_insert_blankLine (.inr ⟨"if a:", _, rfl, hemitted, rfl, rfl⟩) ?_, by decide +kernel⟩
  exact ⟨['\t', ' '], "# note".toList, rfl, by simp, .inr ⟨" note".toList, rfl, by simp⟩⟩

end Diglot
