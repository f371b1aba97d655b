import Diglot.Proofs.Braced.Lexed
import Diglot.Proofs.Braced.Parts

namespace Diglot

variable {c : Char}

-- A blank behind a text changes nothing about the pieces of the text.

theorem isWordChar_of_isBlank (h : isBlank c = true) : isWordChar c = false := by
  apply Bool.eq_false_iff.mpr
  intro hword
  have hnot := Braced.isBlank_of_isWordPart (show Braced.isWordPart c = true by
    simp [Braced.isWordPart, hword])
  simp [hnot] at h

namespace Number

variable {c : Char} {text : List Char}

theorem stops_blank (h : isBlank c = true) : Stops [c] where
  word := by simpa using isWordChar_of_isBlank h
  point := by simp [fraction, ne_of_test h (d := '.') rfl]

theorem sign_concat (h : isBlank c = true) (text : List Char) : sign (text ++ [c]) = sign text := by
  cases text with
  | nil =>
      have hplus := ne_of_test h (d := '+') rfl
      have hminus := ne_of_test h (d := '-') rfl
      simp [sign, hplus, hminus]
  | cons d text => exact sign_append (by simp)

theorem exponent_concat (h : isBlank c = true) (text : List Char) :
    exponent (text ++ [c]) = exponent text := by
  cases text with
  | nil =>
      have hsmall := ne_of_test h (d := 'e') rfl
      have hlarge := ne_of_test h (d := 'E') rfl
      simp [exponent, hsmall, hlarge]
  | cons mark rest =>
      have hdrop : (rest ++ [c]).drop (sign rest).length = rest.drop (sign rest).length ++ [c] :=
        List.drop_append_of_le_length (length_sign_le rest)
      simp only [List.cons_append, exponent, sign_concat h, hdrop,
        takeWhile_append_of_head (stops_blank h).digit]

theorem finish_concat (h : isBlank c = true) {literal : List Char}
    (hlength : literal.length ≤ text.length) :
    finish literal (text ++ [c]) = finish literal text := by
  have hdrop : (text ++ [c]).drop literal.length = _ := List.drop_append_of_le_length hlength
  have hletter : isLetter c = false := by simpa using (stops_blank h).letter
  have hword := takeWhile_append_of_head (stops_blank h).word (text.drop literal.length)
  simp only [finish, hdrop, hword]
  cases text.drop literal.length with
  | nil => simp [hletter]
  | cons d rest => rfl

theorem read_concat (h : isBlank c = true) (hne : text ≠ []) : read (text ++ [c]) = read text := by
  have hstops := stops_blank h
  have hwhole : (text.takeWhile isDigit).length ≤ text.length :=
    (List.takeWhile_prefix isDigit).length_le
  unfold read
  rw [hexadecimal_append hstops hne]
  split
  · rename_i literal hliteral
    exact finish_concat h (isPrefix_hexadecimal hliteral).length_le
  · dsimp only
    rw [takeWhile_append_of_head hstops.digit, List.drop_append_of_le_length hwhole,
      fraction_append hstops]
    have hmantissa := prefix_append (List.takeWhile_prefix isDigit (l := text)) isPrefix_fraction
    generalize text.takeWhile isDigit ++ fraction (text.drop (text.takeWhile isDigit).length) =
      mantissa at hmantissa ⊢
    rw [List.drop_append_of_le_length hmantissa.length_le, fraction_append hstops,
      exponent_concat h]
    have hliteral := prefix_append hmantissa isPrefix_exponent
    split
    · rename_i hsecond
      have hrest : text.drop mantissa.length ≠ [] := by
        intro hnil
        simp [hnil, fraction] at hsecond
      rw [List.drop_append_of_le_length (List.length_pos_iff.mpr hrest),
        takeWhile_append_of_head hstops.word]
    · exact finish_concat h hliteral.length_le

end Number

theorem Quoted.body_concat {quote : Char} (h : c ≠ quote) (text : List Char) :
    body quote (text ++ [c]) = body quote text := by
  fun_induction body quote text with
  | case1 => simp [body, h]
  | case2 rest => exact body_close quote _
  | case3 rest hquote => exact body_stop (Ne.symm hquote) _
  | case4 hquote hfeed => simp [body_escape (Ne.symm hquote), body]
  | case5 escaped rest hbody hquote hfeed ih
  | case6 escaped rest value piece hbody hquote hfeed ih =>
      rw [List.cons_append, List.cons_append, body_escape (Ne.symm hquote), ih, hbody]
      rfl
  | case7 d rest hquote hfeed hslash hbody ih
  | case8 d rest hquote hfeed hslash value piece hbody ih =>
      rw [List.cons_append, body_cons hquote hfeed hslash, ih, hbody]
      rfl

theorem Quoted.template_concat (h : c ≠ '`') (text : List Char) :
    template (text ++ [c]) = template text := by
  fun_induction template text with
  | case1 => simp [template, h]
  | case2 rest => unfold template; rfl
  | case3 => simp [template]
  | case4 escaped rest htick ih => simp [template, ih]
  | case5 d rest htick hslash ih =>
      conv => lhs; rw [List.cons_append]; unfold template
      rw [if_neg htick, if_neg hslash, ih]

namespace Piece

variable {c : Char}

theorem longestOperator_concat {operators : List String}
    (h : ∀ lexeme ∈ operators, c ∉ lexeme.toList) {text : List Char} (hne : text ≠ []) :
    longestOperator? operators (text ++ [c]) = longestOperator? operators text := by
  have hnone : ∀ front : List Char, operators.contains (String.ofList (front ++ [c])) = false := by
    intro front
    apply Bool.eq_false_iff.mpr
    intro hmem
    exact h _ (List.contains_iff_mem.mp hmem) (by simp)
  rcases text with _ | ⟨x, _ | ⟨y, _ | ⟨z, rest⟩⟩⟩
  · exact absurd rfl hne
  · have hone := hnone [x]
    simp only [List.cons_append, List.nil_append] at hone
    cases hx : operators.contains (String.ofList [x]) <;>
      simp only [longestOperator?, List.cons_append, List.nil_append, List.take, List.find?, hone, hx]
  · have htwo := hnone [x, y]
    simp only [List.cons_append, List.nil_append] at htwo
    cases hx : operators.contains (String.ofList [x]) <;>
      cases hxy : operators.contains (String.ofList [x, y]) <;>
      simp only [longestOperator?, List.cons_append, List.nil_append, List.take, List.find?, htwo, hx,
        hxy]
  · rfl

end Piece

namespace Braced

variable {c d : Char} {text rest : List Char} {tokens : List Token}

theorem blockComment_concat (h : c ≠ '/') (text : List Char) :
    blockComment (text ++ [c]) = blockComment text := by
  fun_induction blockComment text with
  | case1 rest => simp [blockComment]
  | case2 d rest hnot ih =>
      have hopen : ∀ more, d = '*' → rest ++ [c] = '/' :: more → False := by
        intro more hd hmore
        cases rest with
        | nil =>
            cases hmore
            exact h rfl
        | cons e rest =>
            cases hmore
            exact hnot _ hd rfl
      rw [List.cons_append, blockComment.eq_2 _ _ hopen, ih]
  | case3 => simp [blockComment]

theorem takeWhile_concat {p : Char → Bool} (h : ∃ d ∈ rest ++ [c], p d = false) :
    (rest ++ [c]).takeWhile p = rest.takeWhile p := by
  rw [List.takeWhile_append]
  split
  · rename_i hfull
    have hall : ∀ d ∈ rest, p d = true := by
      rw [← (List.takeWhile_prefix p).eq_of_length hfull]
      exact List.all_eq_true.mp List.all_takeWhile
    have hc : p c = false := by
      obtain ⟨d, hd, hfails⟩ := h
      rcases List.mem_append.mp hd with hd | hd
      · simp [hall d hd] at hfails
      · rwa [← List.mem_singleton.mp hd]
    simp [hc, (List.takeWhile_prefix p).eq_of_length hfull]
  · rfl

theorem not_mem_operators_of_isBlank (h : isBlank c = true) :
    ∀ lexeme ∈ operators, c ∉ lexeme.toList := by
  have hnone : (operators.all fun lexeme => lexeme.toList.all fun d => !isBlank d) = true := by
    decide
  intro lexeme hmem hc
  have hnot := List.all_eq_true.mp (List.all_eq_true.mp hnone lexeme hmem) c hc
  simp [h] at hnot

-- A blank behind a text is not part of its first piece, unless that is a comment up to the end.
theorem piece_concat (h : isBlank c = true)
    (hcomment : d = '/' → rest.head? = some '/' → '\n' ∈ rest ++ [c]) :
    piece d (rest ++ [c]) = piece d rest := by
  have hhead : ∀ e, isBlank e = false → ((rest ++ [c]).head? == some e) = (rest.head? == some e) := by
    intro e he
    cases rest with
    | nil => simpa using ne_of_test h he
    | cons first rest => rfl
  unfold piece
  rw [hhead '/' rfl, hhead '*' rfl]
  split
  · rfl
  split
  · rename_i hslash
    simp only [Bool.and_eq_true, beq_iff_eq] at hslash
    rw [takeWhile_concat ⟨'\n', hcomment hslash.1 hslash.2, by decide⟩]
  split
  · rename_i hstar
    simp only [Bool.and_eq_true, beq_iff_eq, List.head?_eq_some_iff] at hstar
    obtain ⟨-, body, rfl⟩ := hstar
    simp only [List.cons_append, List.drop_succ_cons, List.drop_zero,
      blockComment_concat (ne_of_test h (d := '/') rfl)]
  split
  · rename_i hquote
    have hd : isBlank d = false := by
      simp only [Bool.or_eq_true, beq_iff_eq] at hquote
      rcases hquote with rfl | rfl <;> rfl
    simp only [Piece.quoted, Quoted.body_concat (ne_of_test h hd)]
  split
  · rw [Quoted.template_concat (ne_of_test h rfl)]
  split
  · simp only [Piece.number, ← List.cons_append, Number.read_concat h (List.cons_ne_nil d rest)]
  split
  · have hword : [c].head?.any isWordPart = false := by
      apply Bool.eq_false_iff.mpr
      intro hc
      simp [isBlank_of_isWordPart (c := c) (by simpa using hc)] at h
    simp only [Piece.word, ← List.cons_append, takeWhile_append_of_head hword]
  · simp only [Piece.operator, ← List.cons_append,
      Piece.longestOperator_concat (not_mem_operators_of_isBlank h) (List.cons_ne_nil d rest)]

theorem piece_comment {body : List Char} (h : '\n' ∉ body) :
    piece '/' ('/' :: body) = .ok (.trivia ('/' :: '/' :: body)) := by
  have hline : (body ++ []).takeWhile (· != '\n') = body ++ [] :=
    List.takeWhile_append_of_pos fun d hd => by simpa using ne_of_mem_of_not_mem hd h
  rw [List.append_nil] at hline
  simp [piece, isBlank, hline]

section Lexing

theorem piece_front {found : Piece} (h : piece d rest = .ok found) :
    ∃ more behind, found.text = d :: more ∧ rest = more ++ behind := by
  obtain ⟨behind, hsplit, -⟩ : lexicon.Cuts 0 (d :: rest) found := piece_cuts h
  cases htext : found.text with
  | nil => exact absurd htext (piece_ne_nil h)
  | cons first more =>
      rw [htext] at hsplit
      cases hsplit
      exact ⟨more, behind, rfl, rfl⟩

-- The tokens of a text say what its tokens are elsewhere.
theorem lexes_of_lex {cursor : Cursor} (h : lex cursor = .ok tokens) :
    Lexes cursor.rest (placeless tokens) := by
  fun_induction lex cursor generalizing tokens with
  | case1 cursor hrest =>
      cases h
      rw [hrest]
      exact lexes_nil
  | case2 => cases h
  | case3 cursor d rest hrest found hpiece shorter ih =>
      obtain ⟨behind, hlex, hbehind⟩ := exists_of_bind_eq_ok h
      cases hbehind
      obtain ⟨more, after, htext, rfl⟩ := piece_front hpiece
      have hafter : (cursor.skip found.text).rest = after := by simp [Cursor.skip, hrest, htext]
      have hlexes := ih hlex
      rw [hafter] at hlexes
      rw [hrest, placeless_append, Piece.placeless_tokens]
      exact hlexes.piece hpiece htext

theorem Lexes.exists_piece (h : Lexes (d :: rest) tokens) :
    ∃ found more after behind, Braced.piece d rest = .ok found ∧ found.text = d :: more ∧
      rest = more ++ after ∧ Lexes after behind ∧ tokens = found.tokens .start ++ behind := by
  obtain ⟨all, hlex, rfl⟩ := h .start
  unfold lex at hlex
  split at hlex
  · cases hlex
  rename_i found hpiece
  obtain ⟨behind, hbehind, hall⟩ := exists_of_bind_eq_ok hlex
  cases hall
  obtain ⟨more, after, htext, rfl⟩ := piece_front hpiece
  have hlexes := lexes_of_lex hbehind
  have hafter : (Cursor.skip ⟨.start, d :: (more ++ after)⟩ found.text).rest = after := by
    simp [Cursor.skip, htext]
  rw [hafter] at hlexes
  refine ⟨found, more, after, _, hpiece, htext, rfl, hlexes, ?_⟩
  rw [placeless_append, Piece.placeless_tokens]

theorem Lexes.of_blank (h : Lexes (c :: rest) tokens) (hc : isBlank c = true) :
    Lexes rest tokens := by
  obtain ⟨found, more, after, behind, hpiece, htext, rfl, hlexes, rfl⟩ := h.exists_piece
  simp only [Braced.piece, hc, if_true, Except.ok.injEq] at hpiece
  subst hpiece
  cases htext
  exact hlexes

-- A blank at the end is left out, be it of a comment or not.
theorem Lexes.of_concat (hc : isBlank c = true) (h : Lexes (text ++ [c]) tokens) :
    Lexes text tokens := by
  induction hlength : text.length using Nat.strongRecOn generalizing text tokens with
  | ind length ih =>
      subst hlength
      cases text with
      | nil => exact h.of_blank hc
      | cons d rest =>
          rw [List.cons_append] at h
          obtain ⟨found, more, after, behind, hpiece, htext, hsplit, hlexes, rfl⟩ := h.exists_piece
          by_cases hcomment : d = '/' → rest.head? = some '/' → '\n' ∈ rest ++ [c]
          · rw [piece_concat hc hcomment] at hpiece
            obtain ⟨front, shorter, hfront, rfl⟩ := piece_front hpiece
            obtain rfl : more = front := by
              rw [hfront] at htext
              exact (List.cons.inj htext).2.symm
            rw [List.append_assoc, List.append_cancel_left_eq] at hsplit
            subst hsplit
            have hshorter : shorter.length < (d :: (more ++ shorter)).length := by
              simp only [List.length_cons, List.length_append]
              omega
            exact (ih _ hshorter hlexes rfl).piece hpiece htext
          · simp only [Classical.not_imp] at hcomment
            obtain ⟨rfl, hslash, hline⟩ := hcomment
            obtain ⟨body, rfl⟩ := List.head?_eq_some_iff.mp hslash
            have hbody : '\n' ∉ body := fun hmem => hline (by simp [hmem])
            rw [List.cons_append, piece_comment fun hmem => hline (by simpa using hmem)] at hpiece
            cases hpiece
            cases htext
            have hafter : after = [] := by simpa using hsplit
            subst hafter
            have hnil : Braced.piece '/' ('/' :: body ++ []) = .ok (.trivia ('/' :: '/' :: body)) := by
              simpa using piece_comment hbody
            have hwhole := hlexes.piece hnil rfl
            rw [List.append_nil] at hwhole
            exact hwhole

theorem Lexes.dropBlanks (h : Lexes text tokens) : Lexes (text.dropWhile isBlank) tokens := by
  induction text with
  | nil => exact h
  | cons c rest ih =>
      rw [List.dropWhile_cons]
      split
      · rename_i hc
        exact ih (h.of_blank hc)
      · exact h

theorem Lexes.dropBlanksEnd (h : Lexes text.reverse tokens) :
    Lexes (text.dropWhile isBlank).reverse tokens := by
  induction text with
  | nil => exact h
  | cons c rest ih =>
      rw [List.dropWhile_cons]
      split
      · rename_i hc
        rw [List.reverse_cons] at h
        exact ih (h.of_concat hc)
      · exact h

-- A text without the blanks at its ends is made into the same tokens.
theorem Lexes.trimBlanks (h : Lexes text tokens) : Lexes (trimBlanks text) tokens :=
  Lexes.dropBlanksEnd (by simpa using h.dropBlanks)

theorem tokenize_trimBlanks {source : List Char} (h : tokenize (String.ofList source) = .ok tokens) :
    ∃ found, tokenize (String.ofList (Diglot.trimBlanks source)) = .ok found ∧
      placeless found = placeless tokens := by
  have hlexes := lexes_of_lex h
  simp only [Cursor.ofText, String.toList_ofList] at hlexes
  obtain ⟨found, hlex, hfound⟩ := hlexes.trimBlanks .start
  exact ⟨found, by simpa [tokenize, Cursor.ofText] using hlex, hfound⟩

end Lexing

end Braced

end Diglot
