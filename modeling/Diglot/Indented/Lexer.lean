import Diglot.Token.Piece

namespace Diglot.Indented

-- The reserved words of the indented notation.
def keywords : List String :=
  ["if", "elif", "else", "for", "while", "def", "class", "return", "try", "except", "finally",
    "import", "from", "as", "print", "in", "not", "and", "or", "True", "False", "None", "pass",
    "break", "continue"]

-- The operators and the punctuation of the indented notation.
def operators : List String :=
  ["//=", "**=", "**", "//", "==", "!=", "<=", ">=", "+=", "-=", "*=", "/=", "%=", "+", "-", "*",
    "/", "%", "=", "<", ">", "(", ")", "[", "]", "\x7b", "\x7d", ":", ",", "."]

-- The columns that a leading blank of a line counts for.
def blankWidth (c : Char) : Nat := if c == '\t' then 4 else 1

-- How wide a run of leading blanks is.
def indentWidth : List Char → Nat
  | [] => 0
  | c :: rest => blankWidth c + indentWidth rest

-- The first piece of a text that starts with `c`. Inside brackets a line feed is only a blank.
def piece (inBrackets : Bool) (c : Char) (rest : List Char) : Except Cause Piece :=
  if c == '\n' then
    .ok (if inBrackets then .trivia [c] else ⟨[c], some (.newline, "\n")⟩)
  else if c == ' ' || c == '\t' || c == '\r' then .ok (.trivia [c])
  else if c == '#' then .ok (.trivia (c :: rest.takeWhile (· != '\n')))
  else if c == '\\' && rest.head? == some '\n' then .ok (.trivia [c, '\n'])
  else if c == '"' || c == '\'' then
    Piece.quoted .string .unterminatedString [c] c rest
  else if c == 'f' && rest.head? == some '"' then
    Piece.quoted .interpolated .unterminatedInterpolated [c, '"'] '"' (rest.drop 1)
  else if c == 'f' && rest.head? == some '\'' then
    Piece.quoted .interpolated .unterminatedInterpolated [c, '\''] '\'' (rest.drop 1)
  else if isDigit c then Piece.number (c :: rest)
  else if isLetter c then .ok (Piece.word keywords isWordChar (c :: rest))
  else Piece.operator operators c rest

theorem piece_ne_nil {inBrackets : Bool} {c : Char} {rest : List Char} {found : Piece}
    (h : piece inBrackets c rest = .ok found) : found.text ≠ [] := by
  unfold piece at h
  split at h
  · cases h; split <;> simp [Piece.trivia]
  split at h
  · cases h; simp [Piece.trivia]
  split at h
  · cases h; simp [Piece.trivia]
  split at h
  · cases h; simp [Piece.trivia]
  split at h
  · exact Piece.quoted_ne_nil (by simp) h
  split at h
  · exact Piece.quoted_ne_nil (by simp) h
  split at h
  · exact Piece.quoted_ne_nil (by simp) h
  split at h
  · rename_i hdigit
    exact Piece.number_ne_nil hdigit h
  split at h
  · rename_i hletter
    cases h
    exact Piece.word_ne_nil (by simp [isWordChar, hletter])
  · exact Piece.operator_ne_nil h

-- The bracket depth behind a piece. A bracket that closes nothing is let pass.
def bracketsAfter (depth : Nat) (found : Piece) : Nat :=
  match found.token with
  | some (.operator, lexeme) =>
      if ["(", "[", "\x7b"].contains lexeme then depth + 1
      else if [")", "]", "\x7d"].contains lexeme then depth - 1
      else depth
  | _ => depth

-- The layout tokens of a line of a given width inside blocks of the given widths, innermost first,
-- and the blocks that are open behind them. A line may leave several blocks at once, but only for
-- one that is open.
def relayout (blocks : List Nat) (width : Nat) :
    Except Cause (List (TokenKind × String) × List Nat) :=
  if blocks.headD 0 < width then
    .ok ([(.indent, toString width)], width :: blocks)
  else
    let kept := blocks.dropWhile (width < ·)
    if kept.headD 0 = width then
      .ok (List.replicate (blocks.length - kept.length) (.dedent, ""), kept)
    else .error (.inconsistentIndentation width)

-- Where the lexer is: the cursor, the widths of the open blocks, innermost first, and how many
-- brackets are open.
structure State where
  cursor : Cursor
  blocks : List Nat
  brackets : Nat

namespace State

-- Whether a line has no token: it ends, or a comment starts, behind its leading blanks.
def lineIsBlank : List Char → Bool
  | [] => true
  | c :: _ => c == '\n' || c == '\r' || c == '#'

-- Measures the line that starts at the cursor. A line without tokens leaves the open blocks alone.
def openLine (state : State) : Except Failure (List Token × State) :=
  let blanks := state.cursor.rest.takeWhile fun c => c == ' ' || c == '\t'
  let cursor := state.cursor.skip blanks
  if lineIsBlank cursor.rest then .ok ([], { state with cursor })
  else
    match relayout state.blocks (indentWidth blanks) with
    | .error cause => .error ⟨cause, cursor.pos⟩
    | .ok (layout, blocks) =>
        .ok (layout.map fun (kind, lexeme) => ⟨kind, lexeme, cursor.pos⟩,
          { state with cursor, blocks })

theorem openLine_length_le {state next : State} {tokens : List Token}
    (h : state.openLine = .ok (tokens, next)) :
    next.cursor.rest.length ≤ state.cursor.rest.length := by
  unfold openLine at h
  simp only at h
  split at h
  · cases h
    simp [Cursor.skip]
  · split at h
    · cases h
    · cases h
      simp [Cursor.skip]

end State

-- The state behind a piece, before the line that a line feed opens is measured.
def State.skip (state : State) (found : Piece) : State :=
  { state with
    cursor := state.cursor.skip found.text
    brackets := bracketsAfter state.brackets found }

-- The tokens from a state to the end of its text. Each line feed outside brackets opens a line; at
-- the end, all open blocks are left.
def lex (state : State) : Except Failure (List Token) :=
  match hrest : state.cursor.rest with
  | [] =>
      .ok (List.replicate state.blocks.length ⟨.dedent, "", state.cursor.pos⟩ ++
        [⟨.eof, "", state.cursor.pos⟩])
  | c :: rest =>
      match hpiece : piece (0 < state.brackets) c rest with
      | .error cause => .error ⟨cause, state.cursor.pos⟩
      | .ok found =>
          have shorter : (state.skip found).cursor.rest.length < state.cursor.rest.length :=
            Cursor.length_skip_lt (by simp [hrest]) (piece_ne_nil hpiece)
          if found.token = some (.newline, "\n") then
            match hline : (state.skip found).openLine with
            | .error failure => .error failure
            | .ok (layout, next) => do
                have shorter := Nat.lt_of_le_of_lt (State.openLine_length_le hline) shorter
                let tokens ← lex next
                .ok (found.tokens state.cursor.pos ++ layout ++ tokens)
          else do
            let tokens ← lex (state.skip found)
            .ok (found.tokens state.cursor.pos ++ tokens)
termination_by state.cursor.rest.length

-- The tokens of a program in the indented notation. Its first line is measured too.
def tokenize (source : String) : Except Failure (List Token) := do
  let (layout, state) ← State.openLine ⟨.ofText source.toList, [], 0⟩
  let tokens ← lex state
  return layout ++ tokens

end Diglot.Indented
