namespace Diglot.Quoted

-- The character that an escaped one stands for. All but four stand for themselves.
def unescape : Char → Char
  | 'n' => '\n'
  | 't' => '\t'
  | 'r' => '\r'
  | '0' => Char.ofNat 0
  | c => c

-- Reads a quoted text behind its opening quote, to the closing one. Gives its value and the piece
-- that was read, closing quote included. A line feed that is not escaped ends it too early.
def body (quote : Char) : List Char → Option (List Char × List Char)
  | [] => none
  | c :: rest =>
      if c = quote then some ([], [c])
      else if c = '\n' then none
      else if c = '\\' then
        match rest with
        | [] => none
        | escaped :: rest =>
            match body quote rest with
            | none => none
            | some (value, piece) => some (unescape escaped :: value, c :: escaped :: piece)
      else
        match body quote rest with
        | none => none
        | some (value, piece) => some (c :: value, c :: piece)

-- Reads a text between backticks behind the opening one. Everything up to the closing backtick is
-- kept as it is written; a backslash keeps the character behind it from closing the text.
def template : List Char → Option (List Char)
  | [] => none
  | c :: rest =>
      if c = '`' then some []
      else if c = '\\' then
        match rest with
        | [] => none
        | escaped :: rest => (template rest).map (c :: escaped :: ·)
      else (template rest).map (c :: ·)

end Diglot.Quoted
