import Diglot.Token.Piece

namespace Diglot.Braced

-- The reserved words of the braced notation.
def keywords : List String :=
  ["let", "const", "var", "function", "return", "if", "else", "for", "while", "break", "continue",
    "class", "extends", "new", "this", "super", "import", "from", "export", "as", "try", "catch",
    "finally", "true", "false", "null", "undefined", "of"]

-- The operators and the punctuation of the braced notation.
def operators : List String :=
  ["===", "!==", "**=", "...", "**", "==", "!=", "<=", ">=", "&&", "||", "++", "--", "+=", "-=",
    "*=", "/=", "%=", "=>", "+", "-", "*", "/", "%", "=", "<", ">", "!", "?", "(", ")", "[", "]",
    "\x7b", "\x7d", ":", ",", ".", ";"]

-- Characters of words: those of names, and the dollar sign.
def isWordPart (c : Char) : Bool := isWordChar c || c == '$'

-- The rest of a block comment behind its opening, up to and with its end.
def blockComment : List Char → Option (List Char)
  | '*' :: '/' :: _ => some ['*', '/']
  | c :: rest => (blockComment rest).map (c :: ·)
  | [] => none

-- The first piece of a text that starts with `c`.
def piece (c : Char) (rest : List Char) : Except Cause Piece :=
  if isBlank c then .ok (.trivia [c])
  else if c == '/' && rest.head? == some '/' then
    .ok (.trivia (c :: rest.takeWhile (· != '\n')))
  else if c == '/' && rest.head? == some '*' then
    match blockComment (rest.drop 1) with
    | none => .error .unterminatedBlockComment
    | some comment => .ok (.trivia (c :: '*' :: comment))
  else if c == '"' || c == '\'' then
    Piece.quoted .string .unterminatedString [c] c rest
  else if c == '`' then
    match Quoted.template rest with
    | none => .error .unterminatedTemplate
    | some raw => .ok ⟨c :: raw ++ ['`'], some (.template, String.ofList raw)⟩
  else if isDigit c then Piece.number (c :: rest)
  else if isWordPart c then .ok (Piece.word keywords isWordPart (c :: rest))
  else Piece.operator operators c rest

theorem piece_ne_nil {c : Char} {rest : List Char} {found : Piece}
    (h : piece c rest = .ok found) : found.text ≠ [] := by
  unfold piece at h
  split at h
  · cases h; simp [Piece.trivia]
  split at h
  · cases h; simp [Piece.trivia]
  split at h
  · split at h
    · cases h
    · cases h; simp [Piece.trivia]
  split at h
  · exact Piece.quoted_ne_nil (by simp) h
  split at h
  · split at h
    · cases h
    · cases h; simp
  split at h
  · rename_i hdigit
    exact Piece.number_ne_nil hdigit h
  split at h
  · rename_i hword
    cases h
    exact Piece.word_ne_nil hword
  · exact Piece.operator_ne_nil h

-- The tokens from a cursor to the end of its text.
def lex (cursor : Cursor) : Except Failure (List Token) :=
  match hrest : cursor.rest with
  | [] => .ok [⟨.eof, "", cursor.pos⟩]
  | c :: rest =>
      match hpiece : piece c rest with
      | .error cause => .error ⟨cause, cursor.pos⟩
      | .ok found => do
          have shorter : (cursor.skip found.text).rest.length < cursor.rest.length :=
            Cursor.length_skip_lt (by simp [hrest]) (piece_ne_nil hpiece)
          let tokens ← lex (cursor.skip found.text)
          .ok (found.tokens cursor.pos ++ tokens)
termination_by cursor.rest.length

-- The tokens of a program in the braced notation.
def tokenize (source : String) : Except Failure (List Token) :=
  lex (.ofText source.toList)

end Diglot.Braced
