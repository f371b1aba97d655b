import Diglot.Failure
import Diglot.Token.Number
import Diglot.Token.Quoted

namespace Diglot

-- A piece of program text: what it says, and the category and lexeme of the token that it makes.
-- Blanks and comments make none.
structure Piece where
  text : List Char
  token : Option (TokenKind × String)
  deriving Repr

namespace Piece

-- A piece that makes no token.
def trivia (text : List Char) : Piece := ⟨text, none⟩

-- The tokens that a piece at a given place makes: at most one.
def tokens (piece : Piece) (pos : Pos) : List Token :=
  match piece.token with
  | none => []
  | some (kind, lexeme) => [⟨kind, lexeme, pos⟩]

-- The number at the start of a text.
def number (text : List Char) : Except Cause Piece :=
  match Number.read text with
  | .error offending => .error (.invalidNumber offending)
  | .ok literal => .ok ⟨literal, some (.number, String.ofList literal)⟩

-- The word at the start of a text: a keyword if the table has it, else an identifier.
def word (keywords : List String) (isPart : Char → Bool) (text : List Char) : Piece :=
  let letters := text.takeWhile isPart
  let lexeme := String.ofList letters
  ⟨letters, some (if keywords.contains lexeme then .keyword else .identifier, lexeme)⟩

-- The longest operator of a table that a text starts with. No operator has more than three
-- characters.
def longestOperator? (operators : List String) (text : List Char) : Option (List Char) :=
  [text.take 3, text.take 2, text.take 1].find? fun candidate =>
    operators.contains (String.ofList candidate)

-- The operator at the start of a text that starts with `c`.
def operator (operators : List String) (c : Char) (rest : List Char) : Except Cause Piece :=
  match longestOperator? operators (c :: rest) with
  | none => .error (.unexpectedCharacter c)
  | some found => .ok ⟨found, some (.operator, String.ofList found)⟩

-- The quoted text that follows an opening, which ends with the quote `quote`.
def quoted (kind : TokenKind) (unterminated : Cause) (opening : List Char) (quote : Char)
    (rest : List Char) : Except Cause Piece :=
  match Quoted.body quote rest with
  | none => .error unterminated
  | some (value, piece) => .ok ⟨opening ++ piece, some (kind, String.ofList value)⟩

theorem number_ne_nil {c : Char} {rest : List Char} {piece : Piece} (hc : isDigit c = true)
    (h : number (c :: rest) = .ok piece) : piece.text ≠ [] := by
  unfold number at h
  split at h
  · cases h
  · rename_i literal hread
    cases h
    exact Number.read_ne_nil hc hread

theorem word_ne_nil {keywords : List String} {isPart : Char → Bool} {c : Char} {rest : List Char}
    (hc : isPart c = true) : (word keywords isPart (c :: rest)).text ≠ [] := by
  simp [word, hc]

theorem operator_ne_nil {operators : List String} {c : Char} {rest : List Char} {piece : Piece}
    (h : operator operators c rest = .ok piece) : piece.text ≠ [] := by
  unfold operator at h
  split at h
  · cases h
  · rename_i found hfound
    cases h
    have hmem := List.mem_of_find?_eq_some hfound
    simp only [List.mem_cons, List.not_mem_nil, or_false] at hmem
    rcases hmem with rfl | rfl | rfl <;> simp

theorem quoted_ne_nil {kind : TokenKind} {unterminated : Cause} {opening : List Char}
    {quote : Char} {rest : List Char} {piece : Piece} (hopening : opening ≠ [])
    (h : quoted kind unterminated opening quote rest = .ok piece) : piece.text ≠ [] := by
  unfold quoted at h
  split at h
  · cases h
  · cases h
    simp [hopening]

end Piece

end Diglot
