namespace Diglot

-- A place in a text: line and column, both counted from one in characters.
structure Pos where
  line : Nat
  column : Nat
  deriving DecidableEq, Repr, Inhabited

namespace Pos

-- The place of a text's first character.
def start : Pos := ⟨1, 1⟩

-- The place right behind a character that stands at `p`. Only a line feed opens a new line.
def next (p : Pos) (c : Char) : Pos :=
  if c = '\n' then ⟨p.line + 1, 1⟩ else ⟨p.line, p.column + 1⟩

-- The place right behind a piece of text that starts at `p`.
def after (p : Pos) (text : List Char) : Pos :=
  text.foldl next p

@[simp]
theorem after_nil (p : Pos) : p.after [] = p := rfl

@[simp]
theorem after_cons (p : Pos) (c : Char) (text : List Char) :
    p.after (c :: text) = (p.next c).after text := rfl

@[simp]
theorem after_append (p : Pos) (text more : List Char) :
    p.after (text ++ more) = (p.after text).after more := by
  simp [after]

end Pos

-- What is left to read of a text, and where that starts.
structure Cursor where
  pos : Pos
  rest : List Char
  deriving Repr

namespace Cursor

-- The cursor at the start of a text.
def ofText (text : List Char) : Cursor := ⟨.start, text⟩

-- The cursor moved over a piece of text that stands right at it.
def skip (cursor : Cursor) (piece : List Char) : Cursor :=
  ⟨cursor.pos.after piece, cursor.rest.drop piece.length⟩

@[simp]
theorem skip_nil (cursor : Cursor) : cursor.skip [] = cursor := rfl

@[simp]
theorem skip_append (pos : Pos) (piece rest : List Char) :
    skip ⟨pos, piece ++ rest⟩ piece = ⟨pos.after piece, rest⟩ := by
  simp [skip]

-- Moving over something leaves less to read.
theorem length_skip_lt {cursor : Cursor} {piece : List Char} (hrest : cursor.rest ≠ [])
    (hpiece : piece ≠ []) : (cursor.skip piece).rest.length < cursor.rest.length := by
  have hr := List.length_pos_iff.mpr hrest
  have hp := List.length_pos_iff.mpr hpiece
  simp only [skip, List.length_drop]
  omega

end Cursor

end Diglot
