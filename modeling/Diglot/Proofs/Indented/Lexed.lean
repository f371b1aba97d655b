import Diglot.Proofs.Pieces
import Diglot.Proofs.Scanner

namespace Diglot.Indented

open Token (op kw word)

-- Wherever a text stands, the lexer makes the given tokens of it, up to their places.
def Lexes (blocks : List Nat) (brackets : Nat) (text : List Char) (tokens : List Token) : Prop :=
  ∀ pos, ∃ found, lex ⟨⟨pos, text⟩, blocks, brackets⟩ = .ok found ∧ placeless found = tokens

section Steps

variable {blocks : List Nat} {brackets : Nat} {rest more text : List Char} {tokens : List Token}
  {state : State} {c : Char} {found : Piece} {inBrackets : Bool} {lexeme : String}

theorem lexes_nil : Lexes blocks brackets []
    (List.replicate blocks.length .dedent ++ [Token.ending]) := by
  intro pos
  refine ⟨List.replicate blocks.length ⟨.dedent, "", pos⟩ ++ [⟨.eof, "", pos⟩], ?_, ?_⟩
  · unfold lex
    rfl
  · rw [placeless_append, placeless_replicate]
    rfl

theorem lex_of_error {cause : Cause} (htext : state.cursor.rest = c :: rest)
    (hpiece : piece (0 < state.brackets) c rest = .error cause) :
    lex state = .error ⟨cause, state.cursor.pos⟩ := by
  unfold lex
  split
  · simp_all
  · rename_i hrest
    rw [htext] at hrest
    cases hrest
    split
    · rename_i hfound
      rw [hpiece] at hfound
      cases hfound
      rfl
    · simp_all

theorem lex_eq_piece (htext : state.cursor.rest = c :: rest)
    (hpiece : piece (0 < state.brackets) c rest = .ok found)
    (htoken : found.token ≠ some (.newline, "\n")) :
    lex state = (lex (state.skip found)).map (found.tokens state.cursor.pos ++ ·) := by
  rw [lex]
  split
  · simp_all
  · rename_i hrest
    rw [htext] at hrest
    cases hrest
    split
    · simp_all
    · rename_i hfound
      rw [hpiece] at hfound
      cases hfound
      rw [if_neg htoken]
      rfl

theorem lex_of_piece {behind : List Token} (htext : state.cursor.rest = c :: rest)
    (hpiece : piece (0 < state.brackets) c rest = .ok found)
    (htoken : found.token ≠ some (.newline, "\n")) (hbehind : lex (state.skip found) = .ok behind) :
    lex state = .ok (found.tokens state.cursor.pos ++ behind) := by
  rw [lex_eq_piece htext hpiece htoken, hbehind]
  rfl

-- A piece in front of a text that the lexer can make tokens of.
theorem Lexes.piece (h : Lexes blocks (bracketsAfter brackets found) rest tokens)
    (hpiece : piece (0 < brackets) c (more ++ rest) = .ok found) (htext : found.text = c :: more)
    (htoken : found.token ≠ some (.newline, "\n")) :
    Lexes blocks brackets (c :: more ++ rest) (found.tokens .start ++ tokens) := by
  intro pos
  obtain ⟨behind, hlex, htokens⟩ := h (pos.after (c :: more))
  refine ⟨found.tokens pos ++ behind, ?_, ?_⟩
  · apply lex_of_piece rfl hpiece htoken
    rw [State.skip, htext, Cursor.skip_append]
    exact hlex
  · rw [placeless_append, Piece.placeless_tokens, htokens]

theorem Lexes.blank (h : Lexes blocks brackets rest tokens) :
    Lexes blocks brackets (' ' :: rest) tokens := by
  have hpiece : Indented.piece (0 < brackets) ' ' ([] ++ rest) = .ok (.trivia [' ']) := rfl
  exact Lexes.piece h hpiece rfl (by simp [Piece.trivia])

-- What tells an operator from all other pieces.
def startsOperator (c : Char) : Bool :=
  !(['\n', ' ', '\t', '\r', '#', '\\', '"', '\'', 'f'].contains c || isDigit c || isLetter c)

theorem piece_operator (h : startsOperator c = true) (text : List Char) :
    Indented.piece inBrackets c text = Piece.operator operators c text := by
  simp only [startsOperator, Bool.not_eq_true', Bool.or_eq_false_iff] at h
  obtain ⟨⟨hnone, hdigit⟩, hletter⟩ := h
  simp only [List.contains_eq_mem, List.mem_cons, List.not_mem_nil, decide_eq_false_iff_not,
    not_or] at hnone
  unfold Indented.piece
  simp_all

theorem operators_start :
    ∀ lexeme ∈ operators, lexeme.toList.head?.any startsOperator = true ∧
      lexeme.toList.length ≤ 3 := by
  decide

theorem Lexes.symbol (lexeme : String) (hmem : lexeme ∈ operators)
    (h : Lexes blocks (bracketsAfter brackets ⟨[], some (.operator, lexeme)⟩) rest tokens)
    (hrest : ∀ c ∈ rest.head?, c ∉ Piece.followers operators lexeme.toList) :
    Lexes blocks brackets (lexeme.toList ++ rest) (op lexeme :: tokens) := by
  obtain ⟨hstart, hlength⟩ := operators_start lexeme hmem
  have hlexeme : String.ofList lexeme.toList = lexeme := String.ofList_toList
  cases htext : lexeme.toList with
  | nil => simp [htext] at hstart
  | cons c more =>
      rw [htext] at hstart hlength hrest hlexeme
      have hpiece : Indented.piece (0 < brackets) c (more ++ rest) =
          .ok ⟨c :: more, some (.operator, lexeme)⟩ := by
        have hcontains : operators.contains (String.ofList (c :: more)) = true := by
          rw [hlexeme]
          exact List.contains_iff_mem.mpr hmem
        rw [piece_operator (by simpa using hstart),
          Piece.operator_append hcontains (Nat.le_of_succ_le_succ hlength) hrest, hlexeme]
      have hbehind : Lexes blocks
          (bracketsAfter brackets ⟨c :: more, some (.operator, lexeme)⟩) rest tokens := h
      exact hbehind.piece hpiece rfl (by simp)

-- An operator that is no bracket.
theorem Lexes.operator (lexeme : String)
    (hmem : lexeme ∈ operators ∧ lexeme ∉ ["(", "[", "\x7b", ")", "]", "\x7d"])
    (h : Lexes blocks brackets rest tokens)
    (hrest : ∀ c ∈ rest.head?, c ∉ Piece.followers operators lexeme.toList) :
    Lexes blocks brackets (lexeme.toList ++ rest) (op lexeme :: tokens) := by
  refine Lexes.symbol lexeme hmem.1 ?_ hrest
  have hsame : bracketsAfter brackets ⟨[], some (.operator, lexeme)⟩ = brackets := by
    have := hmem.2
    simp only [List.mem_cons, List.not_mem_nil, or_false, not_or] at this
    simp [bracketsAfter, this]
  rwa [hsame]

-- No longer operator starts with a bracket or a mark of punctuation.
theorem followers_mark (h : lexeme ∈ ["(", "[", "\x7b", ")", "]", "\x7d", ",", ":", "."])
    (c : Char) :
    c ∉ Piece.followers operators lexeme.toList := by
  have hnone : ∀ lexeme ∈ ["(", "[", "\x7b", ")", "]", "\x7d", ",", ":", "."],
      Piece.followers operators lexeme.toList = [] := by decide
  simp [hnone lexeme h]

theorem Lexes.opening (c : Char) (hc : c ∈ ['(', '[', '{'])
    (h : Lexes blocks (brackets + 1) rest tokens) :
    Lexes blocks brackets (c :: rest) (op (String.ofList [c]) :: tokens) := by
  simp only [List.mem_cons, List.not_mem_nil, or_false] at hc
  rcases hc with rfl | rfl | rfl
  · exact Lexes.symbol "(" (by decide) h fun c _ => followers_mark (by decide) c
  · exact Lexes.symbol "[" (by decide) h fun c _ => followers_mark (by decide) c
  · exact Lexes.symbol "\x7b" (by decide) h fun c _ => followers_mark (by decide) c

theorem Lexes.closing (c : Char) (hc : c ∈ [')', ']', '}'])
    (h : Lexes blocks brackets rest tokens) :
    Lexes blocks (brackets + 1) (c :: rest) (op (String.ofList [c]) :: tokens) := by
  simp only [List.mem_cons, List.not_mem_nil, or_false] at hc
  rcases hc with rfl | rfl | rfl
  · exact Lexes.symbol ")" (by decide) h fun c _ => followers_mark (by decide) c
  · exact Lexes.symbol "]" (by decide) h fun c _ => followers_mark (by decide) c
  · exact Lexes.symbol "\x7d" (by decide) h fun c _ => followers_mark (by decide) c

theorem Lexes.mark (c : Char) (hc : c ∈ [',', ':', '.'])
    (h : Lexes blocks brackets rest tokens) :
    Lexes blocks brackets (c :: rest) (op (String.ofList [c]) :: tokens) := by
  simp only [List.mem_cons, List.not_mem_nil, or_false] at hc
  rcases hc with rfl | rfl | rfl
  · exact Lexes.symbol "," (by decide) h fun c _ => followers_mark (by decide) c
  · exact Lexes.symbol ":" (by decide) h fun c _ => followers_mark (by decide) c
  · exact Lexes.symbol "." (by decide) h fun c _ => followers_mark (by decide) c

-- A token that is neither an operator nor a line feed.
theorem Lexes.token {kind : TokenKind} (h : Lexes blocks brackets rest tokens)
    (hpiece : Indented.piece (0 < brackets) c (more ++ rest) =
      .ok ⟨c :: more, some (kind, lexeme)⟩) (hoperator : kind ≠ .operator)
    (hnewline : kind ≠ .newline) :
    Lexes blocks brackets (c :: more ++ rest) (⟨kind, lexeme, .start⟩ :: tokens) := by
  have hsame : bracketsAfter brackets ⟨c :: more, some (kind, lexeme)⟩ = brackets := by
    unfold bracketsAfter
    split
    · rename_i htoken
      cases htoken
      exact absurd rfl hoperator
    · rfl
  have hbehind : Lexes blocks (bracketsAfter brackets ⟨c :: more, some (kind, lexeme)⟩) rest
      tokens := by rwa [hsame]
  exact hbehind.piece hpiece rfl (by simp [hnewline])

-- A text that does not carry on the word or the number in front of it, and that is no quote, which
-- would carry on a word that says `f`.
structure Ends (rest : List Char) : Prop extends Number.Stops rest where
  quote : rest.head?.any (['"', '\''].contains ·) = false

theorem ends_nil : Ends [] := ⟨⟨rfl, rfl⟩, rfl⟩

theorem ends_cons (hc : c ∈ [' ', ',', ':', '(', '[', ')', ']', '}', '\n', '='])
    (rest : List Char) :
    Ends (c :: rest) := by
  simp only [List.mem_cons, List.not_mem_nil, or_false] at hc
  rcases hc with rfl | rfl | rfl | rfl | rfl | rfl | rfl | rfl | rfl | rfl <;>
    exact ⟨⟨rfl, rfl⟩, rfl⟩

-- Whether a text is a word: letters and digits, no digit first.
def isWord (text : List Char) : Bool := text.head?.any isLetter && text.all isWordChar

theorem piece_word (inBrackets : Bool) (hc : isLetter c = true)
    (htext : text.head?.any (['"', '\''].contains ·) = false) :
    Indented.piece inBrackets c text = .ok (Piece.word keywords isWordChar (c :: text)) := by
  have hne : ∀ d, isLetter d = false → c ≠ d := by
    rintro d hd rfl
    simp [hc] at hd
  have hquote : text.head? ≠ some '"' ∧ text.head? ≠ some '\'' := by
    constructor <;> intro h <;> simp [h] at htext
  unfold Indented.piece
  simp [hne '\n' rfl, hne ' ' rfl, hne '\t' rfl, hne '\r' rfl, hne '#' rfl, hne '\\' rfl,
    hne '"' rfl, hne '\'' rfl, isDigit_of_isLetter hc, hc, hquote]

theorem Lexes.word (hword : isWord text = true) (h : Lexes blocks brackets rest tokens)
    (hrest : Ends rest) :
    Lexes blocks brackets (text ++ rest)
      (⟨if keywords.contains (String.ofList text) then .keyword else .identifier,
        String.ofList text, .start⟩ :: tokens) := by
  cases text with
  | nil => simp [isWord] at hword
  | cons c more =>
      simp only [isWord, List.head?_cons, Option.any_some, Bool.and_eq_true] at hword
      obtain ⟨hc, hall⟩ := hword
      have hquote : (more ++ rest).head?.any (['"', '\''].contains ·) = false := by
        cases more with
        | nil => exact hrest.quote
        | cons d more =>
            have hd : isWordChar d = true := by simp_all
            have hdouble : d ≠ '"' := by rintro rfl; simp [isWordChar, isLetter, isDigit] at hd
            have hsingle : d ≠ '\'' := by rintro rfl; simp [isWordChar, isLetter, isDigit] at hd
            simp [hdouble, hsingle]
      have hpiece := piece_word (0 < brackets) hc hquote
      rw [← List.cons_append, Piece.word_append hrest.word hall] at hpiece
      exact h.token hpiece (by split <;> simp) (by split <;> simp)

theorem piece_digit (hc : isDigit c = true) :
    Indented.piece inBrackets c rest = Piece.number (c :: rest) := by
  have hne : ∀ d, isDigit d = false → c ≠ d := fun d hd => ne_of_test hc hd
  unfold Indented.piece
  simp [hne '\n' rfl, hne ' ' rfl, hne '\t' rfl, hne '\r' rfl, hne '#' rfl, hne '\\' rfl,
    hne '"' rfl, hne '\'' rfl, hne 'f' rfl, hc]

theorem Lexes.number (hliteral : Number.isLiteral text = true)
    (h : Lexes blocks brackets rest tokens) (hrest : Ends rest) :
    Lexes blocks brackets (text ++ rest) (.number (String.ofList text) :: tokens) := by
  cases text with
  | nil => simp [Number.isLiteral] at hliteral
  | cons c more =>
      have hc : isDigit c = true := by
        simp only [Number.isLiteral, Bool.and_eq_true] at hliteral
        exact hliteral.1
      have hpiece : Indented.piece (0 < brackets) c (more ++ rest) =
          Piece.number (c :: more ++ rest) := piece_digit hc
      rw [Piece.number_append hrest.toStops hliteral] at hpiece
      exact h.token hpiece (by simp) (by simp)

end Steps

-- The lexer as the lexers of both notations are seen. It has the widths of the open blocks in mind,
-- and how many brackets are open.
def scanner : Scanner where
  State := List Nat × Nat
  inner state := (state.1, state.2 + 1)
  lexes state := Lexes state.1 state.2
  ends := Ends
  blank := Lexes.blank
  opening := Lexes.opening
  closing := Lexes.closing
  mark c hc := Lexes.mark c (List.mem_append_left ['.'] hc)
  ends_cons hc rest := ends_cons (List.mem_append_left ['\n', '='] hc) rest

section Words

variable {name : String}

theorem joins_operator (lexeme : String)
    (hmem : lexeme ∈ operators ∧ lexeme ∉ ["(", "[", "\x7b", ")", "]", "\x7d"]) :
    scanner.Joins lexeme.toList (op lexeme) := by
  intro state rest more hlexes
  have hfollowers : ∀ lexeme ∈ operators, ' ' ∉ Piece.followers operators lexeme.toList := by
    decide
  refine Lexes.operator lexeme hmem (Lexes.blank hlexes) fun c hc => ?_
  cases hc
  exact hfollowers lexeme hmem.1

theorem lexesAs_keyword (keyword : String) (hword : isWord keyword.toList = true)
    (hmem : keyword ∈ keywords) : scanner.LexesAs keyword.toList [kw keyword] := by
  intro state rest behind hrest hlexes
  have htoken := Lexes.word hword hlexes hrest
  rw [String.ofList_toList, if_pos (List.contains_iff_mem.mpr hmem)] at htoken
  exact htoken

theorem joins_keyword (keyword : String) (hword : isWord keyword.toList = true)
    (hmem : keyword ∈ keywords) : scanner.Joins keyword.toList (kw keyword) :=
  fun _ rest _ hlexes =>
    lexesAs_keyword keyword hword hmem (ends_cons (by decide) rest) (Lexes.blank hlexes)

-- Whether a text is a name: a word that is no keyword.
def isName (name : String) : Bool := isWord name.toList && !keywords.contains name

theorem lexesAs_name (h : isName name = true) : scanner.LexesAs name.toList [word name] := by
  intro state rest behind hrest hlexes
  simp only [isName, Bool.and_eq_true, Bool.not_eq_true'] at h
  have htoken := Lexes.word h.1 hlexes hrest
  rw [String.ofList_toList, h.2, if_neg Bool.false_ne_true] at htoken
  exact htoken

theorem lexesAs_number {literal : String} (h : Number.isLiteral literal.toList = true) :
    scanner.LexesAs literal.toList [.number literal] := by
  intro state rest more hrest hlexes
  have htoken := Lexes.number h hlexes hrest
  rwa [String.ofList_toList] at htoken

theorem lexesAs_string (value : String) :
    scanner.LexesAs (quote value).toList [.string (Quoted.readBack value)] := by
  intro state rest more _ hlexes
  have hpiece : Indented.piece (0 < state.2) '"' ((value.toList.flatMap escaped ++ ['"']) ++ rest) =
      .ok ⟨'"' :: (value.toList.flatMap escaped ++ ['"']),
        some (.string, Quoted.readBack value)⟩ := by
    unfold Indented.piece
    simp [Piece.quoted, Quoted.body_flatMap_escaped, Quoted.readBack]
  rw [quote, String.toList_ofList]
  exact Lexes.token hlexes hpiece (by simp) (by simp)

theorem lexesAs_member (h : isName name = true) :
    scanner.LexesAs ('.' :: name.toList) [op ".", word name] :=
  fun _ _ _ hrest hlexes => Lexes.mark '.' (by decide) (lexesAs_name h hrest hlexes)

-- A point is no decimal point in front of a name.
theorem ends_point (h : isName name = true) (rest : List Char) :
    Ends ('.' :: name.toList ++ rest) := by
  have hword := (Bool.and_eq_true_iff.mp h).1
  refine ⟨⟨rfl, ?_⟩, rfl⟩
  cases htext : name.toList with
  | nil => simp [isWord, htext] at hword
  | cons c more =>
      have hletter : isLetter c = true := by
        simp only [isWord, htext, List.head?_cons, Option.any_some, Bool.and_eq_true] at hword
        exact hword.1
      simp [Number.fraction, isDigit_of_isLetter hletter]

end Words

-- What an expression may not start with: what makes a longer operator of a sign, and what a line
-- starts with that has no token or is indented.
def opensText (c : Char) : Bool := !(['=', ' ', '\t', '\n', '\r', '#'].contains c)

section Lines

variable {blocks inner : List Nat} {text rest : List Char} {tokens layout : List Token}
  {column : Nat} {state next : State} {c : Char} {found : Piece} {source : String}

-- Wherever a text stands at the start of a line, the lexer makes the given tokens of it, those of
-- its layout included.
def LexesLines (blocks : List Nat) (text : List Char) (tokens : List Token) : Prop :=
  ∀ pos, ∃ layout next found, State.openLine ⟨⟨pos, text⟩, blocks, 0⟩ = .ok (layout, next) ∧
    lex next = .ok found ∧ placeless (layout ++ found) = tokens

theorem lexesLines_nil :
    LexesLines blocks [] (List.replicate blocks.length .dedent ++ [Token.ending]) := by
  intro pos
  have hnil : Lexes blocks 0 [] _ := lexes_nil
  obtain ⟨found, hlex, hfound⟩ := hnil pos
  exact ⟨[], _, found, rfl, hlex, hfound⟩

theorem indentWidth_replicate (column : Nat) :
    indentWidth (List.replicate column ' ') = column := by
  induction column with
  | zero => rfl
  | succ column ih =>
      have hblank : blankWidth ' ' = 1 := rfl
      rw [List.replicate_succ, indentWidth, ih, hblank, Nat.add_comm]

theorem openLine_of_opens {pos : Pos} {layout : List (TokenKind × String)}
    (hopens : text.head?.any opensText = true)
    (hlayout : relayout blocks column = .ok (layout, inner)) :
    State.openLine ⟨⟨pos, List.replicate column ' ' ++ text⟩, blocks, 0⟩ =
      .ok (layout.map fun part => ⟨part.1, part.2, pos.after (List.replicate column ' ')⟩,
        ⟨⟨pos.after (List.replicate column ' '), text⟩, inner, 0⟩) := by
  cases text with
  | nil => simp at hopens
  | cons c more =>
      simp only [List.head?_cons, Option.any_some, opensText, Bool.not_eq_true',
        List.contains_eq_mem, List.mem_cons, List.not_mem_nil, decide_eq_false_iff_not,
        not_or] at hopens
      have hblanks : (List.replicate column ' ' ++ c :: more).takeWhile
          (fun c => c == ' ' || c == '\t') = List.replicate column ' ' := by
        rw [takeWhile_append_of_head (by simp [hopens])]
        simp
      have hfull : State.lineIsBlank (c :: more) = false := by
        simp [State.lineIsBlank, hopens]
      simp only [State.openLine, hblanks, Cursor.skip_append, hfull, indentWidth_replicate,
        hlayout, Bool.false_eq_true, if_false]

-- A line that starts with so many blanks.
theorem Lexes.line {layout : List (TokenKind × String)} (h : Lexes inner 0 text tokens)
    (hopens : text.head?.any opensText = true)
    (hlayout : relayout blocks column = .ok (layout, inner)) :
    LexesLines blocks (List.replicate column ' ' ++ text)
      (layout.map (fun part => ⟨part.1, part.2, .start⟩) ++ tokens) := by
  intro pos
  obtain ⟨found, hlex, hfound⟩ := h (pos.after (List.replicate column ' '))
  refine ⟨_, _, found, openLine_of_opens hopens hlayout, hlex, ?_⟩
  rw [placeless_append, hfound]
  simp [Placed.placeless]

-- The tokens from the start of a line on.
def lexLine (state : State) : Except Failure (List Token) := do
  let (layout, next) ← state.openLine
  let tokens ← lex next
  return layout ++ tokens

theorem lexLine_of_openLine (h : state.openLine = .ok (layout, next)) :
    lexLine state = (lex next).map (layout ++ ·) := by
  rw [lexLine, h]
  rfl

theorem lex_eq_line (htext : state.cursor.rest = c :: rest)
    (hpiece : piece (0 < state.brackets) c rest = .ok found)
    (htoken : found.token = some (.newline, "\n")) :
    lex state = (lexLine (state.skip found)).map (found.tokens state.cursor.pos ++ ·) := by
  rw [lex]
  split
  · simp_all
  · rename_i hrest
    rw [htext] at hrest
    cases hrest
    split
    · simp_all
    · rename_i hfound
      rw [hpiece] at hfound
      cases hfound
      rw [if_pos htoken]
      split
      · rename_i hopen
        rw [lexLine, hopen]
        rfl
      · rename_i layout next hopen
        rw [lexLine_of_openLine hopen]
        cases lex next with
        | error failure => rfl
        | ok tokens =>
            refine congrArg Except.ok ?_
            rw [List.append_assoc]

theorem lex_of_newline {behind : List Token} (htext : state.cursor.rest = c :: rest)
    (hpiece : piece (0 < state.brackets) c rest = .ok found)
    (htoken : found.token = some (.newline, "\n"))
    (hline : (state.skip found).openLine = .ok (layout, next)) (hbehind : lex next = .ok behind) :
    lex state = .ok (found.tokens state.cursor.pos ++ layout ++ behind) := by
  rw [lex_eq_line htext hpiece htoken, lexLine_of_openLine hline, hbehind, List.append_assoc]
  rfl

theorem LexesLines.newline (h : LexesLines blocks rest tokens) :
    Lexes blocks 0 ('\n' :: rest) (.newline :: tokens) := by
  intro pos
  obtain ⟨layout, next, found, hline, hlex, hfound⟩ := h (pos.after ['\n'])
  refine ⟨⟨.newline, "\n", pos⟩ :: (layout ++ found), ?_, ?_⟩
  · have hpiece : Indented.piece (0 < 0) '\n' rest =
        .ok ⟨['\n'], some (.newline, "\n")⟩ := rfl
    have hstep : lex ⟨⟨pos, '\n' :: rest⟩, blocks, 0⟩ = _ :=
      lex_of_newline rfl hpiece rfl hline hlex
    exact hstep
  · rw [placeless_cons, hfound]
    rfl

theorem LexesLines.tokenize (h : LexesLines [] source.toList tokens) :
    ∃ found, Indented.tokenize source = .ok found ∧ placeless found = tokens := by
  obtain ⟨layout, next, found, hline, hlex, hfound⟩ := h .start
  refine ⟨layout ++ found, ?_, hfound⟩
  change lexLine _ = _
  rw [Cursor.ofText, lexLine_of_openLine hline, hlex]
  rfl

-- The first line of a text whose first character opens an expression is not indented.
theorem Lexes.tokenize (h : Lexes [] 0 source.toList tokens)
    (hopens : source.toList.head?.any opensText = true) :
    ∃ found, Indented.tokenize source = .ok found ∧ placeless found = tokens := by
  have hlayout : relayout [] 0 = .ok ([], []) := rfl
  exact LexesLines.tokenize (h.line hopens hlayout)

end Lines

end Diglot.Indented
