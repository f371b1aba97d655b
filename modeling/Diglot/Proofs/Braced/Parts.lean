import Diglot.Braced.Lexer
import Diglot.Proofs.Parts

namespace Diglot.Braced

variable {cursor : Cursor} {tokens : List Token}

-- What makes no token: a blank, a comment to the end of its line, or one up to its first end.
def IsTrivia (text rest : List Char) : Prop :=
  (∃ c, isBlank c = true ∧ text = [c]) ∨
  (∃ body, text = '/' :: '/' :: body ∧ '\n' ∉ body ∧ rest.head?.all (· == '\n') = true) ∨
  (∃ body, text = '/' :: '*' :: (body ++ ['*', '/']) ∧ ¬ ['*', '/'] <:+: body ++ ['*'])

def lexicon : Lexicon := ⟨keywords, operators, isWordPart, fun _ => IsTrivia⟩

theorem blockComment_eq_some {text comment : List Char} (h : blockComment text = some comment) :
    comment <+: text ∧ ∃ body, comment = body ++ ['*', '/'] ∧ ¬ ['*', '/'] <:+: body ++ ['*'] := by
  fun_induction blockComment text generalizing comment with
  | case1 rest =>
      cases h
      refine ⟨by simp, [], rfl, ?_⟩
      intro hinfix
      have hlength := hinfix.length_le
      simp at hlength
  | case2 c rest hnot ih =>
      obtain ⟨inner, hinner, rfl⟩ := Option.map_eq_some_iff.mp h
      obtain ⟨hfront, body, rfl, hbody⟩ := ih hinner
      refine ⟨(List.prefix_cons_inj c).mpr hfront, c :: body, rfl, ?_⟩
      intro hinfix
      rcases List.infix_cons_iff.mp hinfix with hstart | hinfix
      · -- An end that starts at `c` would have been found there.
        obtain ⟨rfl, hslash⟩ := List.cons_prefix_cons.mp hstart
        cases body with
        | nil => simp at hslash
        | cons d body =>
            obtain ⟨rfl, -⟩ := List.cons_prefix_cons.mp hslash
            obtain ⟨more, rfl⟩ := hfront
            exact hnot _ rfl rfl
      · exact hbody hinfix
  | case3 => cases h

theorem length_operators : ∀ other ∈ operators, 0 < other.length ∧ other.length ≤ 3 := by decide

theorem piece_cuts {depth : Nat} {c : Char} {rest : List Char} {found : Piece}
    (h : piece c rest = .ok found) : lexicon.Cuts depth (c :: rest) found := by
  unfold piece at h
  split at h
  · rename_i hblank
    cases h
    exact ⟨rest, rfl, fun _ => .inl ⟨c, hblank, rfl⟩⟩
  split at h
  · rename_i hslash
    cases h
    simp only [Bool.and_eq_true, beq_iff_eq, List.head?_eq_some_iff] at hslash
    obtain ⟨rfl, body, rfl⟩ := hslash
    obtain ⟨hbody, hend⟩ := lineEnd body
    refine ⟨body.dropWhile (· != '\n'), ?_, fun _ => .inr (.inl ⟨_, rfl, hbody, hend⟩)⟩
    simp [Piece.trivia]
  split at h
  · rename_i hstar
    simp only [Bool.and_eq_true, beq_iff_eq, List.head?_eq_some_iff] at hstar
    obtain ⟨rfl, body, rfl⟩ := hstar
    split at h
    · cases h
    · rename_i comment hcomment
      cases h
      obtain ⟨⟨more, hmore⟩, inner, rfl, hinner⟩ := blockComment_eq_some hcomment
      refine ⟨more, ?_, fun _ => .inr (.inr ⟨inner, rfl, hinner⟩)⟩
      simpa [Piece.trivia] using hmore.symm
  split at h
  · rename_i hquote
    exact Lexicon.cuts_string (by simpa using hquote) h
  split at h
  · rename_i hquote
    obtain rfl := eq_of_beq hquote
    split at h
    · cases h
    · rename_i raw hraw
      cases h
      obtain ⟨more, hmore⟩ := Quoted.isPrefix_template hraw
      refine ⟨more, by simpa using hmore.symm, fun _ => ?_⟩
      simp [Lexicon.Says, Lexicon.Spells, Part.ofPiece]
  split at h
  · exact Lexicon.cuts_number h
  split at h
  · cases h
    exact Lexicon.cuts_word _
  · exact Lexicon.cuts_operator length_operators h

-- The tokens of a text are those of parts that cover it.
theorem exists_covers (h : lex cursor = .ok tokens) (depth : Nat) :
    ∃ parts, Part.Covers lexicon cursor depth parts ∧ Part.tokensOf parts = tokens := by
  fun_induction lex cursor generalizing tokens depth with
  | case1 cursor hrest =>
      cases h
      exact ⟨_, Part.covers_eof hrest, rfl⟩
  | case2 => cases h
  | case3 cursor c rest hrest found hpiece shorter ih =>
      obtain ⟨behind, hlex, hbehind⟩ := exists_of_bind_eq_ok h
      cases hbehind
      obtain ⟨parts, hparts, rfl⟩ := ih hlex (Token.bracketDepth depth (found.tokens cursor.pos))
      refine ⟨.ofPiece found cursor.pos :: parts, .piece (hrest ▸ piece_cuts hpiece) hparts, ?_⟩
      rw [Part.tokensOf_cons, Part.token_ofPiece]

-- Every token but the end is that of a piece.
theorem exists_piece_of_mem (h : lex cursor = .ok tokens) {token : Token} (hmem : token ∈ tokens) :
    token.kind = .eof ∨
      ∃ c rest found pos, piece c rest = .ok found ∧ token ∈ found.tokens pos := by
  fun_induction lex cursor generalizing tokens with
  | case1 cursor hrest =>
      cases h
      exact .inl (by rw [List.mem_singleton.mp hmem])
  | case2 => cases h
  | case3 cursor c rest hrest found hpiece shorter ih =>
      obtain ⟨behind, hlex, hbehind⟩ := exists_of_bind_eq_ok h
      cases hbehind
      rcases List.mem_append.mp hmem with hmem | hmem
      · exact .inr ⟨c, rest, found, cursor.pos, hpiece, hmem⟩
      · exact ih hlex hmem

end Diglot.Braced
