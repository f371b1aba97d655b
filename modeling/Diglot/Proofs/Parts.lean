import Diglot.Proofs.Pieces

namespace Diglot

variable {ε α β : Type} {x : Except ε α} {f : α → Except ε β} {failure : ε}

theorem exists_of_bind_eq_ok {b : β} (h : x >>= f = .ok b) : ∃ a, x = .ok a ∧ f a = .ok b := by
  cases x with
  | error failure => cases h
  | ok a => exact ⟨a, rfl, h⟩

theorem error_of_bind (h : x >>= f = .error failure) :
    x = .error failure ∨ ∃ a, x = .ok a ∧ f a = .error failure := by
  cases x with
  | error other =>
      cases h
      exact .inl rfl
  | ok a => exact .inr ⟨a, rfl, h⟩

theorem error_of_map {f : α → β} (h : x.map f = .error failure) : x = .error failure := by
  cases x with
  | error other =>
      cases h
      rfl
  | ok a => cases h

-- The place right behind a text that a program starts with: its line feeds give the line, and the
-- characters behind the last of them the column.
def Pos.behind (text : List Char) : Pos :=
  ⟨text.count '\n' + 1, (text.reverse.takeWhile (· != '\n')).length + 1⟩

theorem Pos.behind_append (text : List Char) (c : Char) :
    behind (text ++ [c]) = (behind text).next c := by
  by_cases hc : c = '\n'
  · subst hc
    simp [behind, next]
  · simp [behind, next, hc]

theorem Pos.after_behind (text more : List Char) :
    (behind text).after more = behind (text ++ more) := by
  induction more generalizing text with
  | nil => simp
  | cons c more ih =>
      rw [after_cons, ← behind_append, ih]
      simp

theorem Pos.after_start (text : List Char) : Pos.start.after text = behind text :=
  after_behind [] text

-- A part of a program's text, and the token that it makes. Blanks and comments make none, and some
-- tokens stand for no text.
structure Part where
  text : List Char
  token : Option Token

namespace Part

-- A piece that stands at a place.
def ofPiece (found : Piece) (pos : Pos) : Part :=
  ⟨found.text, found.token.map fun (kind, lexeme) => ⟨kind, lexeme, pos⟩⟩

-- The text of some parts.
def textOf (parts : List Part) : List Char := parts.flatMap (·.text)

-- The tokens of some parts.
def tokensOf (parts : List Part) : List Token := parts.filterMap (·.token)

@[simp]
theorem textOf_nil : textOf [] = [] := rfl

@[simp]
theorem textOf_cons (part : Part) (parts : List Part) :
    textOf (part :: parts) = part.text ++ textOf parts := List.flatMap_cons

@[simp]
theorem textOf_append (parts more : List Part) :
    textOf (parts ++ more) = textOf parts ++ textOf more := List.flatMap_append

@[simp]
theorem tokensOf_nil : tokensOf [] = [] := rfl

theorem tokensOf_cons (part : Part) (parts : List Part) :
    tokensOf (part :: parts) = part.token.toList ++ tokensOf parts := by
  unfold tokensOf
  cases htoken : part.token with
  | none => simp [htoken]
  | some token => simp [htoken]

@[simp]
theorem tokensOf_append (parts more : List Part) :
    tokensOf (parts ++ more) = tokensOf parts ++ tokensOf more := List.filterMap_append

@[simp]
theorem token_ofPiece (found : Piece) (pos : Pos) :
    (ofPiece found pos).token.toList = found.tokens pos := by
  unfold ofPiece Piece.tokens
  cases found.token <;> rfl

end Part

namespace Token

-- How many brackets are open behind a token. One that closes nothing is let pass.
def bracketed (depth : Nat) (token : Token) : Nat :=
  if token.kind = .operator then
    if token.lexeme ∈ ["(", "[", "\x7b"] then depth + 1
    else if token.lexeme ∈ [")", "]", "\x7d"] then depth - 1
    else depth
  else depth

-- How many brackets are open behind some tokens that follow on others.
def bracketDepth (depth : Nat) (tokens : List Token) : Nat := tokens.foldl bracketed depth

end Token

-- The tables of a notation, and what makes no token in it: a text in front of another, inside so
-- many brackets.
structure Lexicon where
  keywords : List String
  operators : List String
  isWordPart : Char → Bool
  IsTrivia : Nat → List Char → List Char → Prop

namespace Lexicon

variable (lexicon : Lexicon)

-- A quoted text behind an opening, in front of another text.
def Quotes (opening : List Char) (lexeme : String) (text rest : List Char) : Prop :=
  ∃ quote body, quote ∈ ['"', '\''] ∧ text = opening ++ quote :: body ∧
    Quoted.body quote (body ++ rest) = some (lexeme.toList, body)

-- How a token is spelled in front of a text, inside so many brackets.
def Spells (depth : Nat) (token : Token) (text rest : List Char) : Prop :=
  match token.kind with
  | .indent | .dedent | .eof => text = []
  | .newline => text = token.lexeme.toList ∧ token.lexeme = "\n" ∧ depth = 0
  | .number => text = token.lexeme.toList
  | .identifier =>
      text = token.lexeme.toList ∧ rest.head?.any lexicon.isWordPart = false ∧
        token.lexeme ∉ lexicon.keywords
  | .keyword =>
      text = token.lexeme.toList ∧ rest.head?.any lexicon.isWordPart = false ∧
        token.lexeme ∈ lexicon.keywords
  | .operator =>
      text = token.lexeme.toList ∧ token.lexeme ∈ lexicon.operators ∧
        ∀ other ∈ lexicon.operators, other.toList <+: text ++ rest →
          other.length ≤ token.lexeme.length
  | .string => Quotes [] token.lexeme text rest
  | .interpolated => Quotes ['f'] token.lexeme text rest
  | .template => text = '`' :: token.lexeme.toList ++ ['`']

-- What a part says in front of a text, inside so many brackets.
def Says (depth : Nat) (part : Part) (rest : List Char) : Prop :=
  match part.token with
  | none => lexicon.IsTrivia depth part.text rest
  | some token => lexicon.Spells depth token part.text rest

-- A piece is cut off the front of a text, inside so many brackets.
def Cuts (depth : Nat) (text : List Char) (found : Piece) : Prop :=
  ∃ rest, text = found.text ++ rest ∧ ∀ pos, lexicon.Says depth (.ofPiece found pos) rest

end Lexicon

-- What is read off the front of a text is a prefix of it.

namespace Number

variable {text literal : List Char}

-- Something read behind a prefix makes a longer prefix with it.
theorem prefix_append {front : List Char} (hfront : front <+: text) {read : List Char → List Char}
    (hread : ∀ rest, read rest <+: rest) : front ++ read (text.drop front.length) <+: text := by
  obtain ⟨rest, rfl⟩ := hfront
  rw [List.drop_left]
  exact (List.prefix_append_right_inj front).mpr (hread rest)

theorem isPrefix_fraction (text : List Char) : fraction text <+: text := by
  unfold fraction
  split
  · dsimp only
    split
    · exact List.nil_prefix
    · exact (List.prefix_cons_inj _).mpr (List.takeWhile_prefix _)
  · exact List.nil_prefix

theorem isPrefix_sign (text : List Char) : sign text <+: text := by
  unfold sign
  split <;> simp

theorem isPrefix_exponent (text : List Char) : exponent text <+: text := by
  unfold exponent
  split
  · rename_i mark rest
    split
    · dsimp only
      split
      · exact List.nil_prefix
      · rw [List.cons_append]
        refine (List.prefix_cons_inj _).mpr ?_
        exact prefix_append (isPrefix_sign rest) fun _ => List.takeWhile_prefix _
    · exact List.nil_prefix
  · exact List.nil_prefix

theorem isPrefix_hexadecimal (h : hexadecimal? text = some literal) : literal <+: text := by
  unfold hexadecimal? at h
  split at h
  · dsimp only at h
    split at h
    · cases h
      simpa using List.takeWhile_prefix _
    · cases h
  · cases h

theorem isPrefix_read (h : read text = .ok literal) : literal <+: text := by
  unfold read at h
  split at h
  · rename_i found hfound
    rw [finish_eq_ok h]
    exact isPrefix_hexadecimal hfound
  · dsimp only at h
    split at h
    · cases h
    · rw [finish_eq_ok h]
      have hwhole : text.takeWhile isDigit <+: text := List.takeWhile_prefix _
      exact prefix_append (prefix_append hwhole isPrefix_fraction) isPrefix_exponent

end Number

namespace Quoted

variable {quote : Char} {text value piece : List Char}

theorem isPrefix_body (h : body quote text = some (value, piece)) : piece <+: text := by
  fun_induction body quote text generalizing value piece with
  | case1 | case3 | case4 | case5 | case7 => cases h
  | case2 rest => cases h; simp
  | case6 escaped rest inner found hbody hquote hfeed ih =>
      cases h
      simpa using ih hbody
  | case8 c rest hquote hfeed hslash inner found hbody ih =>
      cases h
      simpa using ih hbody

-- A value is shorter than the piece that it is quoted by.
theorem length_lt_of_body (h : body quote text = some (value, piece)) :
    value.length < piece.length := by
  fun_induction body quote text generalizing value piece with
  | case1 | case3 | case4 | case5 | case7 => cases h
  | case2 rest =>
      cases h
      simp
  | case6 escaped rest inner found hbody hquote hfeed ih
  | case8 c rest hquote hfeed hslash inner found hbody ih =>
      cases h
      have := ih hbody
      simp only [List.length_cons]
      omega

theorem isPrefix_template {raw : List Char} (h : template text = some raw) :
    raw ++ ['`'] <+: text := by
  fun_induction template text generalizing raw with
  | case1 | case3 => cases h
  | case2 rest => cases h; simp
  | case4 escaped rest hquote ih | case5 c rest hquote hslash ih =>
      obtain ⟨inner, hinner, rfl⟩ := Option.map_eq_some_iff.mp h
      simpa using ih hinner

end Quoted

-- What stands in front of the next line feed.
theorem lineEnd (text : List Char) :
    '\n' ∉ text.takeWhile (· != '\n') ∧
      (text.dropWhile (· != '\n')).head?.all (· == '\n') = true := by
  constructor
  · intro hmem
    have hall := List.all_eq_true.mp (List.all_takeWhile : (text.takeWhile (· != '\n')).all _ = true)
    simpa using hall '\n' hmem
  · have hhead := List.head?_dropWhile_not (· != '\n') text
    cases hdrop : (text.dropWhile (· != '\n')).head? with
    | none => rfl
    | some c => simpa [hdrop] using hhead

namespace Piece

variable {operators : List String} {text found : List Char}

theorem isPrefix_longestOperator (h : longestOperator? operators text = some found) :
    found <+: text := by
  have hmem := List.mem_of_find?_eq_some h
  simp only [List.mem_cons, List.not_mem_nil, or_false] at hmem
  rcases hmem with rfl | rfl | rfl <;> exact List.take_prefix _ _

-- No operator of at most three characters that a text starts with is longer than the one found.
theorem length_le_longestOperator (h : longestOperator? operators text = some found)
    {other : String} (hmem : other ∈ operators) (hlength : 0 < other.length ∧ other.length ≤ 3)
    (hfront : other.toList <+: text) : other.length ≤ found.length := by
  have hother : text.take other.length = other.toList := by
    rw [← String.length_toList]
    exact (List.prefix_iff_eq_take.mp hfront).symm
  have hfits : other.length ≤ text.length := by
    rw [← String.length_toList]
    exact hfront.length_le
  have hcontains : operators.contains (String.ofList (text.take other.length)) = true := by
    rw [hother, String.ofList_toList]
    exact List.contains_iff_mem.mpr hmem
  -- A longer candidate would have been found first.
  have hne : ∀ n, operators.contains (String.ofList (text.take n)) = false → other.length ≠ n := by
    rintro n hnot rfl
    rw [hcontains] at hnot
    cases hnot
  have htake : ∀ n, other.length ≤ n → other.length ≤ (text.take n).length := by
    intro n hn
    rw [List.length_take]
    omega
  simp only [longestOperator?, List.find?_cons] at h
  split at h
  · cases h
    exact htake 3 hlength.2
  · rename_i hthree
    have := hne 3 hthree
    split at h
    · cases h
      exact htake 2 (by omega)
    · rename_i htwo
      have := hne 2 htwo
      split at h
      · cases h
        exact htake 1 (by omega)
      · cases h

end Piece

namespace Lexicon

variable {lexicon : Lexicon} {depth : Nat} {text rest : List Char} {found : Piece}
  {unterminated : Cause} {quote : Char}

theorem cuts_number (h : Piece.number text = .ok found) : lexicon.Cuts depth text found := by
  unfold Piece.number at h
  split at h
  · cases h
  · rename_i literal hread
    cases h
    obtain ⟨rest, hrest⟩ := Number.isPrefix_read hread
    exact ⟨rest, hrest.symm, fun _ => String.toList_ofList.symm⟩

theorem cuts_word (text : List Char) :
    lexicon.Cuts depth text (Piece.word lexicon.keywords lexicon.isWordPart text) := by
  refine ⟨text.dropWhile lexicon.isWordPart, List.takeWhile_append_dropWhile.symm, fun pos => ?_⟩
  have hrest : (text.dropWhile lexicon.isWordPart).head?.any lexicon.isWordPart = false := by
    cases hdrop : text.dropWhile lexicon.isWordPart with
    | nil => rfl
    | cons c rest =>
        have hhead := List.head?_dropWhile_not lexicon.isWordPart text
        simpa [hdrop] using hhead
  simp only [Says, Part.ofPiece, Piece.word, Option.map_some]
  split
  · rename_i hmem
    exact ⟨String.toList_ofList.symm, hrest, List.contains_iff_mem.mp hmem⟩
  · rename_i hmem
    exact ⟨String.toList_ofList.symm, hrest, fun h => hmem (List.contains_iff_mem.mpr h)⟩

theorem cuts_operator {c : Char}
    (hlength : ∀ other ∈ lexicon.operators, 0 < other.length ∧ other.length ≤ 3)
    (h : Piece.operator lexicon.operators c rest = .ok found) :
    lexicon.Cuts depth (c :: rest) found := by
  unfold Piece.operator at h
  split at h
  · cases h
  · rename_i lexeme hfound
    cases h
    obtain ⟨more, hmore⟩ := Piece.isPrefix_longestOperator hfound
    have hmem := List.find?_some hfound
    refine ⟨more, hmore.symm, fun pos => ⟨String.toList_ofList.symm, ?_, ?_⟩⟩
    · exact List.contains_iff_mem.mp hmem
    · intro other hother hfront
      simp only [hmore, Part.ofPiece] at hfront
      rw [String.length_ofList]
      exact Piece.length_le_longestOperator hfound hother (hlength other hother) hfront

theorem cuts_quoted (opening : List Char) {kind : TokenKind} (hquote : quote ∈ ['"', '\''])
    (h : Piece.quoted kind unterminated (opening ++ [quote]) quote rest = .ok found)
    (hspells : ∀ token text rest, token.kind = kind →
      Quotes opening token.lexeme text rest → lexicon.Spells depth token text rest) :
    lexicon.Cuts depth (opening ++ quote :: rest) found := by
  unfold Piece.quoted at h
  split at h
  · cases h
  · rename_i value piece hbody
    cases h
    obtain ⟨more, rfl⟩ := Quoted.isPrefix_body hbody
    refine ⟨more, by simp, fun pos => hspells _ _ _ rfl ⟨quote, piece, hquote, ?_, ?_⟩⟩
    · simp [Part.ofPiece]
    · rw [String.toList_ofList, hbody]

theorem cuts_string (hquote : quote ∈ ['"', '\''])
    (h : Piece.quoted .string unterminated [quote] quote rest = .ok found) :
    lexicon.Cuts depth (quote :: rest) found := by
  refine cuts_quoted [] hquote h fun token text rest hkind hquotes => ?_
  rwa [Spells, hkind]

theorem cuts_interpolated (hquote : quote ∈ ['"', '\''])
    (h : Piece.quoted .interpolated unterminated ['f', quote] quote rest = .ok found) :
    lexicon.Cuts depth ('f' :: quote :: rest) found := by
  refine cuts_quoted ['f'] hquote h fun token text rest hkind hquotes => ?_
  rwa [Spells, hkind]

end Lexicon

namespace Part

-- Parts that follow on a text and on brackets: each says what it is in front of those behind it,
-- and its token stands where its text starts.
def Tiles (lexicon : Lexicon) (pos : Pos) (depth : Nat) (parts : List Part) : Prop :=
  ∀ before part after, parts = before ++ part :: after →
    lexicon.Says (Token.bracketDepth depth (tokensOf before)) part (textOf after) ∧
      ∀ token ∈ part.token, token.pos = pos.after (textOf before)

variable {lexicon : Lexicon} {pos : Pos} {depth : Nat} {part : Part} {parts : List Part}

-- Nothing but the end.
theorem tiles_eof : Tiles lexicon pos depth [⟨[], some ⟨.eof, "", pos⟩⟩] := by
  intro before part after h
  cases before with
  | nil =>
      cases h
      refine ⟨rfl, fun token htoken => ?_⟩
      cases htoken
      rfl
  | cons first before => simp at h

theorem Tiles.cons (hsaid : lexicon.Says depth part (textOf parts))
    (hpos : ∀ token ∈ part.token, token.pos = pos)
    (h : Tiles lexicon (pos.after part.text) (Token.bracketDepth depth part.token.toList) parts) :
    Tiles lexicon pos depth (part :: parts) := by
  intro before other after hparts
  cases before with
  | nil =>
      cases hparts
      exact ⟨hsaid, hpos⟩
  | cons first before =>
      cases hparts
      have hother := h before other after rfl
      rw [tokensOf_cons, textOf_cons, Pos.after_append, Token.bracketDepth, List.foldl_append]
      exact hother

-- The parts of what a cursor has left to read.
structure Covers (lexicon : Lexicon) (cursor : Cursor) (depth : Nat) (parts : List Part) : Prop where
  text : textOf parts = cursor.rest
  tiles : Tiles lexicon cursor.pos depth parts

variable {cursor : Cursor} {found : Piece}

theorem covers_eof (h : cursor.rest = []) :
    Covers lexicon cursor depth [⟨[], some ⟨.eof, "", cursor.pos⟩⟩] :=
  ⟨by simp [h], tiles_eof⟩

theorem Covers.piece (hcuts : lexicon.Cuts depth cursor.rest found)
    (h : Covers lexicon (cursor.skip found.text)
      (Token.bracketDepth depth (found.tokens cursor.pos)) parts) :
    Covers lexicon cursor depth (.ofPiece found cursor.pos :: parts) := by
  obtain ⟨rest, hrest, hsaid⟩ := hcuts
  have hskip : cursor.skip found.text = ⟨cursor.pos.after found.text, rest⟩ := by
    simp [Cursor.skip, hrest]
  rw [hskip] at h
  refine ⟨?_, Tiles.cons (h.text ▸ hsaid _) ?_ ?_⟩
  · rw [textOf_cons, h.text, hrest]
    rfl
  · intro token htoken
    obtain ⟨found, -, rfl⟩ := Option.map_eq_some_iff.mp htoken
    rfl
  · rw [token_ofPiece]
    exact h.tiles

end Part

end Diglot
