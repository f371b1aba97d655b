import Diglot.Proofs.Pieces
import Diglot.Proofs.Scanner

namespace Diglot.Braced

open Token (op kw word)

-- Wherever a text stands, the lexer makes the given tokens of it, up to their places.
def Lexes (text : List Char) (tokens : List Token) : Prop :=
  ∀ pos, ∃ found, lex ⟨pos, text⟩ = .ok found ∧ placeless found = tokens

section Steps

variable {rest text : List Char} {tokens : List Token} {cursor : Cursor} {c : Char} {found : Piece}

theorem lexes_nil : Lexes [] [Token.ending] := by
  intro pos
  refine ⟨[⟨.eof, "", pos⟩], ?_, rfl⟩
  unfold lex
  rfl

theorem lex_eq_piece (htext : cursor.rest = c :: rest) (hpiece : piece c rest = .ok found) :
    lex cursor = (lex (cursor.skip found.text)).map (found.tokens cursor.pos ++ ·) := by
  rw [lex]
  split
  · simp_all
  · rename_i hrest
    rw [htext] at hrest
    cases hrest
    split
    · simp_all
    · rename_i hfound
      rw [hpiece] at hfound
      cases hfound
      rfl

theorem lex_of_piece {behind : List Token} (htext : cursor.rest = c :: rest)
    (hpiece : piece c rest = .ok found) (hbehind : lex (cursor.skip found.text) = .ok behind) :
    lex cursor = .ok (found.tokens cursor.pos ++ behind) := by
  rw [lex_eq_piece htext hpiece, hbehind]
  rfl

theorem lex_of_error {cause : Cause} (htext : cursor.rest = c :: rest)
    (hpiece : piece c rest = .error cause) : lex cursor = .error ⟨cause, cursor.pos⟩ := by
  unfold lex
  split
  · simp_all
  · rename_i hrest
    rw [htext] at hrest
    cases hrest
    split
    · rename_i hfound
      rw [hpiece] at hfound
      cases hfound
      rfl
    · simp_all

-- A piece in front of a text that the lexer can make tokens of.
theorem Lexes.piece {more : List Char} (h : Lexes rest tokens)
    (hpiece : piece c (more ++ rest) = .ok found) (htext : found.text = c :: more) :
    Lexes (c :: more ++ rest) (found.tokens .start ++ tokens) := by
  intro pos
  obtain ⟨behind, hlex, htokens⟩ := h (pos.after (c :: more))
  refine ⟨found.tokens pos ++ behind, ?_, ?_⟩
  · apply lex_of_piece rfl hpiece
    rw [htext, Cursor.skip_append]
    exact hlex
  · rw [placeless_append, Piece.placeless_tokens, htokens]

theorem Lexes.blank (h : Lexes rest tokens) : Lexes (' ' :: rest) tokens := by
  have hpiece : Braced.piece ' ' ([] ++ rest) = .ok (.trivia [' ']) := rfl
  exact Lexes.piece h hpiece rfl

theorem Lexes.blanks (h : Lexes rest tokens) (count : Nat) :
    Lexes (List.replicate count ' ' ++ rest) tokens := by
  induction count with
  | zero => exact h
  | succ count ih => exact ih.blank

theorem Lexes.newline (h : Lexes rest tokens) : Lexes ('\n' :: rest) tokens := by
  have hpiece : Braced.piece '\n' ([] ++ rest) = .ok (.trivia ['\n']) := rfl
  exact Lexes.piece h hpiece rfl

-- What tells an operator from all other pieces but comments.
def startsOperator (c : Char) : Bool :=
  !(['"', '\'', '`'].contains c || isBlank c || isDigit c || isWordPart c)

-- The characters that make something else of an operator: a longer one, or a comment.
def followers (lexeme : List Char) : List Char :=
  Piece.followers operators lexeme ++ if lexeme == ['/'] then ['/', '*'] else []

theorem piece_operator (h : startsOperator c = true)
    (hcomment : c = '/' → text.head? ≠ some '/' ∧ text.head? ≠ some '*') :
    Braced.piece c text = Piece.operator operators c text := by
  simp only [startsOperator, Bool.not_eq_true', Bool.or_eq_false_iff] at h
  obtain ⟨⟨⟨hnone, hblank⟩, hdigit⟩, hpart⟩ := h
  simp only [List.contains_eq_mem, List.mem_cons, List.not_mem_nil, decide_eq_false_iff_not,
    not_or] at hnone
  unfold Braced.piece
  by_cases hc : c = '/'
  · simp_all
  · simp_all

theorem operators_start :
    ∀ lexeme ∈ operators, lexeme.toList.head?.any startsOperator = true ∧
      lexeme.toList.length ≤ 3 ∧
      (lexeme.toList.head? = some '/' → lexeme.toList = ['/'] ∨ lexeme.toList = ['/', '=']) := by
  decide

theorem Lexes.operator (lexeme : String) (hmem : lexeme ∈ operators) (h : Lexes rest tokens)
    (hrest : ∀ c ∈ rest.head?, c ∉ followers lexeme.toList) :
    Lexes (lexeme.toList ++ rest) (op lexeme :: tokens) := by
  obtain ⟨hstart, hlength, hslash⟩ := operators_start lexeme hmem
  have hlexeme : String.ofList lexeme.toList = lexeme := String.ofList_toList
  cases htext : lexeme.toList with
  | nil => simp [htext] at hstart
  | cons c more =>
      rw [htext] at hstart hlength hrest hlexeme hslash
      have hlonger : ∀ d ∈ rest.head?, d ∉ Piece.followers operators (c :: more) :=
        fun d hd hmem => hrest d hd (List.mem_append_left _ hmem)
      have hcomment : c = '/' →
          (more ++ rest).head? ≠ some '/' ∧ (more ++ rest).head? ≠ some '*' := by
        rintro rfl
        rcases hslash rfl with hone | htwo
        · cases hone
          constructor <;> intro hhead <;> simpa [followers] using hrest _ hhead
        · cases htwo
          simp
      have hpiece : Braced.piece c (more ++ rest) =
          .ok ⟨c :: more, some (.operator, lexeme)⟩ := by
        have hcontains : operators.contains (String.ofList (c :: more)) = true := by
          rw [hlexeme]
          exact List.contains_iff_mem.mpr hmem
        rw [piece_operator (by simpa using hstart) hcomment,
          Piece.operator_append hcontains (Nat.le_of_succ_le_succ hlength) hlonger, hlexeme]
      exact h.piece hpiece rfl

-- No longer operator starts with a bracket or a mark of punctuation.
theorem Lexes.mark (c : Char) (hc : c ∈ ['(', '[', '{', ')', ']', '}', ',', ':'])
    (h : Lexes rest tokens) : Lexes (c :: rest) (op (String.ofList [c]) :: tokens) := by
  have hmarks : ∀ c ∈ ['(', '[', '{', ')', ']', '}', ',', ':'],
      (operators.contains (String.ofList [c]) && (followers [c]).isEmpty) = true :=
    List.all_eq_true.mp (by decide)
  have hmark := hmarks c hc
  rw [Bool.and_eq_true, List.contains_iff_mem, List.isEmpty_iff] at hmark
  have hoperator := Lexes.operator (String.ofList [c]) hmark.1 h
  simp only [String.toList_ofList, hmark.2] at hoperator
  exact hoperator fun _ _ => List.not_mem_nil

-- Whether a text is a word: letters, digits and dollar signs, no digit first.
def isWord (text : List Char) : Bool :=
  text.head?.any (fun c => isWordPart c && !isDigit c) && text.all isWordPart

-- A text that does not carry on the word or the number in front of it.
structure Ends (rest : List Char) : Prop where
  word : rest.head?.any isWordPart = false
  point : Number.fraction rest = []

theorem Ends.stops (h : Ends rest) : Number.Stops rest :=
  ⟨head_any_of_imp (fun c hc => by simp [isWordPart, hc]) h.word, h.point⟩

theorem ends_nil : Ends [] := ⟨rfl, rfl⟩

theorem ends_cons (hc : c ∈ [' ', ',', ':', '(', '[', ')', ']', '}']) (rest : List Char) :
    Ends (c :: rest) := by
  simp only [List.mem_cons, List.not_mem_nil, or_false] at hc
  rcases hc with rfl | rfl | rfl | rfl | rfl | rfl | rfl | rfl <;> exact ⟨rfl, rfl⟩

theorem isBlank_of_isWordPart (h : isWordPart c = true) : isBlank c = false := by
  -- Characters of words are printable ASCII characters, and no such character is blank.
  have hrange : 33 ≤ c.val.toNat ∧ c.val.toNat ≤ 126 := by
    simp only [isWordPart, isWordChar, Bool.or_eq_true, isLetter_iff, isDigit_iff,
      beq_iff_eq] at h
    rcases h with ((h | h | rfl) | h) | rfl
    · omega
    · omega
    · decide
    · omega
    · decide
  apply Bool.eq_false_iff.mpr
  intro hblank
  have hbounds : '\r'.val.toNat = 13 ∧ '\u2000'.val.toNat = 8192 := by decide
  simp only [isBlank, Bool.or_eq_true, Bool.and_eq_true, decide_eq_true_eq, beq_iff_eq,
    Char.le_def, UInt32.le_iff_toNat_le] at hblank
  rcases hblank with
    ((((((((((hcontrol | rfl) | rfl) | rfl) | rfl) | hspace) | rfl) | rfl) | rfl) | rfl) | rfl)
  · omega
  any_goals (revert hrange; decide)
  omega

theorem Lexes.word (hword : isWord text = true) (h : Lexes rest tokens) (hrest : Ends rest) :
    Lexes (text ++ rest)
      (⟨if keywords.contains (String.ofList text) then .keyword else .identifier,
        String.ofList text, .start⟩ :: tokens) := by
  cases text with
  | nil => simp [isWord] at hword
  | cons c more =>
      simp only [isWord, List.head?_cons, Option.any_some, Bool.and_eq_true,
        Bool.not_eq_true'] at hword
      obtain ⟨⟨hc, hdigit⟩, hall⟩ := hword
      have hne : ∀ d, isWordPart d = false → c ≠ d := fun d hd => ne_of_test hc hd
      have hpiece : Braced.piece c (more ++ rest) =
          .ok (Piece.word keywords isWordPart (c :: more ++ rest)) := by
        unfold Braced.piece
        simp [isBlank_of_isWordPart hc, hne '/' rfl, hne '"' rfl, hne '\'' rfl, hne '`' rfl,
          hdigit, hc]
      rw [Piece.word_append hrest.word hall] at hpiece
      exact h.piece hpiece rfl

theorem piece_digit (hc : isDigit c = true) : Braced.piece c rest = Piece.number (c :: rest) := by
  have hne : ∀ d, isDigit d = false → c ≠ d := fun d hd => ne_of_test hc hd
  have hpart : isWordPart c = true := by simp [isWordPart, isWordChar, hc]
  unfold Braced.piece
  simp [isBlank_of_isWordPart hpart, hne '/' rfl, hne '"' rfl, hne '\'' rfl, hne '`' rfl, hc]

theorem Lexes.number (hliteral : Number.isLiteral text = true) (h : Lexes rest tokens)
    (hrest : Ends rest) : Lexes (text ++ rest) (.number (String.ofList text) :: tokens) := by
  cases text with
  | nil => simp [Number.isLiteral] at hliteral
  | cons c more =>
      have hc : isDigit c = true := by
        simp only [Number.isLiteral, Bool.and_eq_true] at hliteral
        exact hliteral.1
      have hpiece : Braced.piece c (more ++ rest) = Piece.number (c :: more ++ rest) :=
        piece_digit hc
      rw [Piece.number_append hrest.stops hliteral] at hpiece
      exact h.piece hpiece rfl

theorem Lexes.string (hplain : text.all Quoted.isPlain = true) (h : Lexes rest tokens) :
    Lexes ('"' :: (text.flatMap escaped ++ ['"']) ++ rest)
      (.string (String.ofList text) :: tokens) := by
  have hpiece : Braced.piece '"' ((text.flatMap escaped ++ ['"']) ++ rest) =
      .ok ⟨'"' :: (text.flatMap escaped ++ ['"']), some (.string, String.ofList text)⟩ := by
    unfold Braced.piece
    simp [isBlank, Piece.quoted, Quoted.body_quote hplain]
  exact h.piece hpiece rfl

end Steps

-- The lexer as the lexers of both notations are seen. It does not count brackets.
def scanner : Scanner where
  State := Unit
  inner _ := ()
  lexes _ := Lexes
  ends := Ends
  blank := Lexes.blank
  opening c hc := Lexes.mark c (List.mem_append_left [')', ']', '}', ',', ':'] hc)
  closing c hc :=
    Lexes.mark c (List.mem_append_right ['(', '[', '{'] (List.mem_append_left [',', ':'] hc))
  mark c hc := Lexes.mark c (List.mem_append_right ['(', '[', '{', ')', ']', '}'] hc)
  ends_cons := ends_cons

section Words

variable {text name : String}

@[simp]
theorem scanner_lexes (state : scanner.State) : scanner.lexes state = Lexes := rfl

theorem joins_operator (lexeme : String) (hmem : lexeme ∈ operators) :
    scanner.Joins lexeme.toList (op lexeme) := by
  intro state rest more hlexes
  have hfollowers : ∀ lexeme ∈ operators, ' ' ∉ followers lexeme.toList := by decide
  refine Lexes.operator lexeme hmem (Lexes.blank hlexes) fun c hc => ?_
  cases hc
  exact hfollowers lexeme hmem

-- The token of a word: a keyword or a name.
def wordToken (text : String) : Token :=
  ⟨if keywords.contains text then .keyword else .identifier, text, .start⟩

theorem lexesAs_word (h : isWord text.toList = true) :
    scanner.LexesAs text.toList [wordToken text] := by
  intro state rest behind hrest hlexes
  have htoken := Lexes.word h hlexes hrest
  rwa [String.ofList_toList] at htoken

-- Whether a text is a name: a word that is no keyword.
def isName (name : String) : Bool := isWord name.toList && !keywords.contains name

theorem lexesAs_name (h : isName name = true) : scanner.LexesAs name.toList [word name] := by
  simp only [isName, Bool.and_eq_true, Bool.not_eq_true'] at h
  have hword := lexesAs_word h.1
  rwa [wordToken, h.2, if_neg Bool.false_ne_true] at hword

theorem lexesAs_string (h : text.toList.all Quoted.isPlain = true) :
    scanner.LexesAs (quote text).toList [.string text] := by
  intro state rest more _ hlexes
  simpa [quote] using Lexes.string h hlexes

theorem lexesAs_number {literal : String} (h : Number.isLiteral literal.toList = true) :
    scanner.LexesAs literal.toList [.number literal] := by
  intro state rest more hrest hlexes
  simpa using Lexes.number h hlexes hrest

-- A point is no decimal point in front of a word.
theorem ends_point (h : isWord text.toList = true) (rest : List Char) :
    Ends ('.' :: text.toList ++ rest) := by
  refine ⟨rfl, ?_⟩
  cases htext : text.toList with
  | nil => simp [isWord, htext] at h
  | cons c more =>
      have hdigit : isDigit c = false := by
        simp only [isWord, htext, List.head?_cons, Option.any_some, Bool.and_eq_true,
          Bool.not_eq_true'] at h
        exact h.1.2
      simp [Number.fraction, hdigit]

-- A word behind a dot, which may be a keyword.
theorem lexesAs_property (h : isWord name.toList = true) :
    scanner.LexesAs ('.' :: name.toList) [op ".", wordToken name] := by
  intro state rest more hrest hlexes
  have hfollowers : ∀ c, isWordPart c = true → c ∉ followers ['.'] := by
    intro c hc hmem
    have hdots : followers ['.'] = ['.'] := by decide
    rw [hdots, List.mem_singleton] at hmem
    subst hmem
    cases hc
  refine Lexes.operator "." (by decide) (lexesAs_word h hrest hlexes) ?_
  cases htext : name.toList with
  | nil => simp [isWord, htext] at h
  | cons c text =>
      simp only [isWord, htext, List.all_cons, Bool.and_eq_true] at h
      rintro d hd
      cases hd
      exact hfollowers c h.2.1

end Words

end Diglot.Braced
