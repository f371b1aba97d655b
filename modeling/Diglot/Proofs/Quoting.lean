import Diglot.Proofs.Braced.Lexed
import Diglot.Proofs.Indented.Lexed
import Diglot.Proofs.Parts

namespace Diglot

variable {source lexeme : String} {c : Char} {rest : List Char} {kind : TokenKind}

theorem Cursor.skip_all (text : List Char) :
    (Cursor.ofText text).skip text = ⟨Pos.behind text, []⟩ := by
  simp [ofText, skip, Pos.after_start]

-- A text that is a single piece gives the token of that piece and the end.

theorem Braced.tokenize_of_piece (htext : source.toList = c :: rest)
    (hpiece : Braced.piece c rest = .ok ⟨source.toList, some (kind, lexeme)⟩) :
    Braced.tokenize source =
      .ok [⟨kind, lexeme, .start⟩, ⟨.eof, "", Pos.behind source.toList⟩] := by
  have hend : Braced.lex ((Cursor.ofText source.toList).skip source.toList) =
      .ok [⟨.eof, "", Pos.behind source.toList⟩] := by
    rw [Cursor.skip_all]
    unfold Braced.lex
    rfl
  have hlex : Braced.lex (.ofText source.toList) = _ := Braced.lex_of_piece htext hpiece hend
  exact hlex

theorem Indented.tokenize_of_piece (htext : source.toList = c :: rest)
    (hpiece : Indented.piece false c rest = .ok ⟨source.toList, some (kind, lexeme)⟩)
    (hkind : kind ∉ [.newline, .operator]) (hblank : c ∉ [' ', '\t', '\n', '\r', '#']) :
    Indented.tokenize source =
      .ok [⟨kind, lexeme, .start⟩, ⟨.eof, "", Pos.behind source.toList⟩] := by
  simp only [List.mem_cons, List.not_mem_nil, or_false, not_or] at hkind hblank
  have hopen : State.openLine ⟨.ofText source.toList, [], 0⟩ =
      .ok ([], ⟨.ofText source.toList, [], 0⟩) := by
    simp [State.openLine, Cursor.ofText, htext, hblank, State.lineIsBlank, relayout, indentWidth]
  have hend : Indented.lex (State.skip ⟨.ofText source.toList, [], 0⟩
      ⟨source.toList, some (kind, lexeme)⟩) = .ok [⟨.eof, "", Pos.behind source.toList⟩] := by
    rw [State.skip, Cursor.skip_all]
    unfold Indented.lex
    rfl
  have hlex : Indented.lex ⟨.ofText source.toList, [], 0⟩ = _ :=
    Indented.lex_of_piece htext hpiece (by simp [hkind]) hend
  rw [Indented.tokenize, hopen]
  change (Indented.lex _ >>= _) = _
  rw [hlex]
  rfl

theorem toList_quote (value : String) :
    (quote value).toList = '"' :: (value.toList.flatMap escaped ++ ['"']) := String.toList_ofList

theorem Piece.quoted_quote (value : String) :
    Piece.quoted .string .unterminatedString ['"'] '"' (value.toList.flatMap escaped ++ ['"']) =
      .ok ⟨(quote value).toList,
        some (.string, String.ofList (value.toList.flatMap Quoted.reread))⟩ := by
  simp [Piece.quoted, Quoted.body_flatMap_escaped, quote]

-- In both notations a quoted text is one token at the start of the text, and nothing but the end
-- follows. The value of the token is the text that was quoted if and only if that has no control
-- characters but line feeds, carriage returns and tabs.
theorem tokenize_quote (dialect : Dialect) (value : String) :
    ∃ lexeme, tokenize dialect (quote value) =
        .ok [⟨.string, lexeme, .start⟩, ⟨.eof, "", Pos.behind (quote value).toList⟩] ∧
      (lexeme = value ↔ value.toList.all Quoted.isPlain = true) := by
  refine ⟨String.ofList (value.toList.flatMap Quoted.reread), ?_, ?_⟩
  · cases dialect with
    | pythonScript =>
        exact Indented.tokenize_of_piece (toList_quote value) (Piece.quoted_quote value)
          (by decide) (by decide)
    | javaScript => exact Braced.tokenize_of_piece (toList_quote value) (Piece.quoted_quote value)
  · rw [← Quoted.flatMap_reread_eq_self_iff, ← String.toList_inj, String.toList_ofList]

-- A null character comes back as the code that it is escaped by.
example : (tokenize .javaScript (quote "a\x00")).toOption.map (·.map Token.lexeme) =
    some ["au0000", ""] := by decide +kernel

end Diglot
