import Diglot.Proofs.Indented.Runs

namespace Diglot

-- What is left of a line.
def lineOf (text : List Char) : List Char := text.takeWhile (· != '\n')

-- A text is its line, and behind that a line feed or nothing.
theorem lineOf_cases (text : List Char) :
    text = lineOf text ∨ ∃ more, text = lineOf text ++ '\n' :: more := by
  induction text with
  | nil => exact .inl rfl
  | cons c rest ih =>
      by_cases hc : c = '\n'
      · subst hc
        exact .inr ⟨rest, rfl⟩
      · have hline : lineOf (c :: rest) = c :: lineOf rest := by simp [lineOf, hc]
        rw [hline]
        rcases ih with ih | ⟨more, ih⟩
        · exact .inl (congrArg (c :: ·) ih)
        · exact .inr ⟨more, congrArg (c :: ·) ih⟩

-- What does not look behind a line feed is the same on all texts with the same line.
theorem eq_of_lineOf {α : Type} {f : List Char → α} (hf : ∀ line more, f (line ++ '\n' :: more) = f line)
    {text other : List Char} (h : lineOf text = lineOf other) : f text = f other := by
  have hself : ∀ text, f text = f (lineOf text) := by
    intro text
    rcases lineOf_cases text with heq | ⟨more, heq⟩
    · rw [← heq]
    · rw [heq, hf, ← heq]
  rw [hself, h, ← hself]

theorem head_feed (line more : List Char) {p : Char → Bool} (hp : p '\n' = false) :
    (line ++ '\n' :: more).head?.any p = line.head?.any p := by
  cases line with
  | nil => simpa using hp
  | cons c line => rfl

namespace Number

variable {line : List Char}

theorem stops_feed (more : List Char) : Stops ('\n' :: more) := ⟨rfl, rfl⟩

theorem sign_feed (line more : List Char) : sign (line ++ '\n' :: more) = sign line := by
  cases line with
  | nil => rfl
  | cons c line => exact sign_append (by simp)

theorem exponent_feed (line more : List Char) : exponent (line ++ '\n' :: more) = exponent line := by
  cases line with
  | nil => rfl
  | cons mark line =>
      simp only [List.cons_append, exponent, sign_feed,
        List.drop_append_of_le_length (length_sign_le line),
        takeWhile_append_of_head (stops_feed more).digit]

theorem finish_feed {literal : List Char} (h : literal.length ≤ line.length) (more : List Char) :
    finish literal (line ++ '\n' :: more) = finish literal line := by
  simp only [finish, List.drop_append_of_le_length h, head_feed _ more (p := isLetter) rfl,
    takeWhile_append_of_head (stops_feed more).word]

theorem read_feed (h : line ≠ []) (more : List Char) : read (line ++ '\n' :: more) = read line := by
  have hstops := stops_feed more
  unfold read
  rw [hexadecimal_append hstops h]
  cases hliteral : hexadecimal? line with
  | some literal => exact finish_feed (isPrefix_hexadecimal hliteral).length_le more
  | none =>
      have hwhole : line.takeWhile isDigit <+: line := List.takeWhile_prefix _
      dsimp only
      rw [takeWhile_append_of_head hstops.digit, List.drop_append_of_le_length hwhole.length_le,
        fraction_append hstops]
      have hmantissa := prefix_append hwhole isPrefix_fraction
      generalize line.takeWhile isDigit ++ fraction _ = mantissa at hmantissa ⊢
      rw [List.drop_append_of_le_length hmantissa.length_le, fraction_append hstops, exponent_feed,
        finish_feed (prefix_append hmantissa isPrefix_exponent).length_le]
      split
      · rename_i hpoint
        have hrest : 1 ≤ (line.drop mantissa.length).length := by
          cases hdrop : line.drop mantissa.length with
          | nil => simp [hdrop, fraction] at hpoint
          | cons c rest => simp
        rw [List.drop_append_of_le_length hrest, takeWhile_append_of_head hstops.word]
      · rfl

end Number

theorem Piece.longestOperator_feed {operators : List String}
    (h : ∀ lexeme ∈ operators, lexeme ≠ "" ∧ '\n' ∉ lexeme.toList) (line more : List Char) :
    longestOperator? operators (line ++ '\n' :: more) = longestOperator? operators line := by
  have hfeed : ∀ {text}, '\n' ∈ text → operators.contains (String.ofList text) = false := by
    intro text htext
    apply Bool.eq_false_iff.mpr
    intro hmem
    exact (h _ (List.contains_iff_mem.mp hmem)).2 (by simpa using htext)
  have hempty : operators.contains (String.ofList []) = false := by
    apply Bool.eq_false_iff.mpr
    intro hmem
    exact (h _ (List.contains_iff_mem.mp hmem)).1 rfl
  unfold longestOperator?
  match line with
  | [] => simp only [List.nil_append, List.take_succ_cons, List.find?_cons, hfeed (.head _),
      List.take_nil, hempty]
  | [a] =>
      have hlonger : ∀ rest, operators.contains (String.ofList (a :: '\n' :: rest)) = false :=
        fun rest => hfeed (by simp)
      simp only [List.cons_append, List.nil_append, List.take_succ_cons, List.find?_cons, hlonger,
        List.take_nil, List.take_zero]
      cases operators.contains (String.ofList [a]) <;> rfl
  | [a, b] =>
      have hlonger : ∀ rest, operators.contains (String.ofList (a :: b :: '\n' :: rest)) = false :=
        fun rest => hfeed (by simp)
      simp only [List.cons_append, List.nil_append, List.take_succ_cons, List.find?_cons, hlonger,
        List.take_nil, List.take_zero]
      cases operators.contains (String.ofList [a, b]) <;> rfl
  | a :: b :: c :: line => rfl

namespace Quoted

variable {quote : Char}

-- A text is read character by character, or two at once where the first is a backslash.
@[elab_as_elim]
theorem escape_induction {motive : List Char → Prop} (nil : motive []) (slash : motive ['\\'])
    (escape : ∀ escaped rest, motive rest → motive ('\\' :: escaped :: rest))
    (plain : ∀ c rest, c ≠ '\\' → motive rest → motive (c :: rest)) (text : List Char) :
    motive text :=
  match text with
  | [] => nil
  | [c] => if h : c = '\\' then h ▸ slash else plain c [] h nil
  | c :: d :: rest =>
      if h : c = '\\' then h ▸ escape d rest (escape_induction nil slash escape plain rest)
      else plain c (d :: rest) h (escape_induction nil slash escape plain (d :: rest))

-- A quoted text that is closed does not look behind its end.
theorem body_append (hquote : quote ≠ '\\') {text more value found : List Char}
    (h : body quote (text ++ more) = some (value, found)) (hlength : found.length ≤ text.length)
    (other : List Char) : body quote (text ++ other) = some (value, found) := by
  induction text using escape_induction generalizing value found with
  | nil =>
      have hshort := length_lt_of_body h
      rw [List.length_nil] at hlength
      omega
  | slash =>
      cases more with
      | nil => simp [body, hquote.symm] at h
      | cons escaped more =>
          rw [List.singleton_append, body_escape hquote] at h
          obtain ⟨⟨inner, rest⟩, -, heq⟩ := Option.map_eq_some_iff.mp h
          cases heq
          simp at hlength
  | escape escaped text ih =>
      simp only [List.cons_append, body_escape hquote] at h ⊢
      obtain ⟨⟨inner, rest⟩, hbody, heq⟩ := Option.map_eq_some_iff.mp h
      cases heq
      rw [ih hbody (by simpa using hlength)]
      rfl
  | plain c text hslash ih =>
      rw [List.cons_append] at h ⊢
      by_cases hclose : c = quote
      · subst hclose
        rwa [body_close] at h ⊢
      by_cases hfeed : c = '\n'
      · subst hfeed
        rw [body_stop (Ne.symm hclose)] at h
        cases h
      · rw [body_cons hclose hfeed hslash] at h ⊢
        obtain ⟨⟨inner, rest⟩, hbody, heq⟩ := Option.map_eq_some_iff.mp h
        cases heq
        rw [ih hbody (by simpa using hlength)]
        rfl

-- A line feed that is not escaped ends every quoted text.
theorem body_feed (hquote : quote ≠ '\\' ∧ quote ≠ '\n') {line : List Char} (hfeed : '\n' ∉ line)
    (hslash : line.getLast? ≠ some '\\') (more : List Char) :
    body quote (line ++ '\n' :: more) = body quote line := by
  induction line using escape_induction with
  | nil => rw [List.nil_append, body_stop hquote.2, body]
  | slash => exact absurd rfl hslash
  | escape escaped line ih =>
      simp only [List.mem_cons, not_or] at hfeed
      simp only [List.cons_append, body_escape hquote.1]
      cases line with
      | nil => rw [List.nil_append, body_stop hquote.2, body]
      | cons d line => rw [ih hfeed.2.2 hslash]
  | plain c line hescape ih =>
      simp only [List.mem_cons, not_or] at hfeed
      rw [List.cons_append]
      by_cases hclose : c = quote
      · subst hclose
        rw [body_close, body_close]
      · rw [body_cons hclose (Ne.symm hfeed.1) hescape, body_cons hclose (Ne.symm hfeed.1) hescape]
        cases line with
        | nil => rw [List.nil_append, body_stop hquote.2, body]
        | cons d line => rw [ih hfeed.2 hslash]

end Quoted

namespace Indented

variable {inBrackets : Bool} {c quote : Char} {text : List Char} {found : Piece}

theorem operators_feed : ∀ lexeme ∈ operators, lexeme ≠ "" ∧ '\n' ∉ lexeme.toList := by decide

-- A piece does not look behind the end of its line, unless it is quoted or joins two lines.
theorem piece_congr {other : List Char} (hline : lineOf text = lineOf other)
    (hjoin : c = '\\' → (text.head? = some '\n' ↔ other.head? = some '\n'))
    (hquoted : c ∈ ['"', '\''] → Quoted.body c text = Quoted.body c other)
    (hinner : c = 'f' → ∀ quote ∈ ['"', '\''], text.head? = some quote →
      Quoted.body quote (text.drop 1) = Quoted.body quote (other.drop 1)) :
    piece inBrackets c text = piece inBrackets c other := by
  have hhead : ∀ quote, quote ≠ '\n' → (text.head? == some quote) = (other.head? == some quote) := by
    intro quote hquote
    refine eq_of_lineOf (f := fun text => text.head? == some quote) (fun line more => ?_) hline
    cases line with
    | nil => simp [hquote.symm]
    | cons d line => rfl
  have hdouble := hhead '"' (by decide)
  have hsingle := hhead '\'' (by decide)
  have hcut : ∀ {p : Char → Bool}, p '\n' = false →
      (c :: text).takeWhile p = (c :: other).takeWhile p := by
    intro p hp
    refine eq_of_lineOf (f := fun text => (c :: text).takeWhile p) (fun line more => ?_) hline
    have hfeed : ('\n' :: more).head?.any p = false := by simpa using hp
    exact takeWhile_append_of_head hfeed (c :: line)
  have hnumber : Number.read (c :: text) = Number.read (c :: other) :=
    eq_of_lineOf (f := fun text => Number.read (c :: text))
      (fun line more => Number.read_feed (List.cons_ne_nil c line) more) hline
  have hoperator : Piece.longestOperator? operators (c :: text) =
      Piece.longestOperator? operators (c :: other) :=
    eq_of_lineOf (f := fun text => Piece.longestOperator? operators (c :: text))
      (fun line more => Piece.longestOperator_feed operators_feed (c :: line) more) hline
  unfold piece
  refine ite_congr rfl (fun _ => rfl) fun _ => ite_congr rfl (fun _ => rfl) fun _ => ?_
  refine ite_congr rfl (fun _ => by rw [← lineOf, hline, lineOf]) fun _ => ?_
  refine ite_congr ?_ (fun _ => rfl) fun _ => ?_
  · by_cases hc : c = '\\'
    · simp [hc, hjoin hc]
    · simp [hc]
  refine ite_congr rfl (fun h => ?_) fun _ => ?_
  · rw [Piece.quoted, hquoted (by simpa using h), Piece.quoted]
  refine ite_congr (by rw [hdouble]) (fun h => ?_) fun _ => ?_
  · simp only [← hdouble, Bool.and_eq_true, beq_iff_eq] at h
    rw [Piece.quoted, hinner h.1 '"' (by decide) h.2, Piece.quoted]
  refine ite_congr (by rw [hsingle]) (fun h => ?_) fun _ => ?_
  · simp only [← hsingle, Bool.and_eq_true, beq_iff_eq] at h
    rw [Piece.quoted, hinner h.1 '\'' (by decide) h.2, Piece.quoted]
  refine ite_congr rfl (fun _ => ?_) fun _ => ite_congr rfl (fun _ => ?_) fun _ => ?_
  · rw [Piece.number, hnumber, Piece.number]
  · rw [Piece.word, hcut rfl, Piece.word]
  · rw [Piece.operator, hoperator, Piece.operator]

theorem lineOf_append (line : List Char) (more other : List Char) :
    lineOf (line ++ '\n' :: more) = lineOf (line ++ '\n' :: other) := by
  induction line with
  | nil => rfl
  | cons c line ih =>
      simp only [lineOf, List.cons_append, List.takeWhile_cons] at ih ⊢
      rw [ih]

theorem head_append (line : List Char) (more other : List Char) :
    (line ++ '\n' :: more).head? = (line ++ '\n' :: other).head? := by
  cases line <;> rfl

theorem piece_string (inBrackets : Bool) (h : quote ∈ ['"', '\'']) (text : List Char) :
    piece inBrackets quote text =
      Piece.quoted .string .unterminatedString [quote] quote text := by
  rcases mem_pair.mp h with rfl | rfl <;> rfl

theorem piece_interpolated (inBrackets : Bool) (h : quote ∈ ['"', '\'']) (text : List Char) :
    piece inBrackets 'f' (quote :: text) =
      Piece.quoted .interpolated .unterminatedInterpolated ['f', quote] quote text := by
  rcases mem_pair.mp h with rfl | rfl <;> rfl

theorem quoted_body {kind : TokenKind} {cause : Cause} {opening : List Char}
    (h : Piece.quoted kind cause opening quote text = .ok found) :
    ∃ value body, Quoted.body quote text = some (value, body) ∧
      found.text.length = opening.length + body.length := by
  unfold Piece.quoted at h
  split at h <;> cases h
  exact ⟨_, _, by assumption, by simp⟩

theorem ne_of_mem_quotes (h : quote ∈ ['"', '\'']) : quote ≠ '\\' ∧ quote ≠ '\n' := by
  rcases mem_pair.mp h with rfl | rfl <;> decide

-- What is found in front of an end of line is found there too when other lines follow.
theorem piece_within {more : List Char} (h : piece inBrackets c (text ++ '\n' :: more) = .ok found)
    (hlength : found.text.length ≤ text.length + 1) (other : List Char) :
    piece inBrackets c (text ++ '\n' :: other) = .ok found := by
  rw [← h]
  refine (piece_congr (lineOf_append text more other) (fun _ => by rw [head_append text more other])
    (fun hc => ?_) fun hc quote hquote hhead => ?_).symm
  · rw [piece_string inBrackets hc] at h
    obtain ⟨value, body, hbody, heq⟩ := quoted_body h
    rw [hbody, Quoted.body_append (ne_of_mem_quotes hc).1 hbody (by simp at heq; omega)]
  · subst hc
    cases text with
    | nil => exact absurd (Option.some.inj hhead).symm (ne_of_mem_quotes hquote).2
    | cons d text =>
        obtain rfl := Option.some.inj hhead
        rw [List.cons_append, piece_interpolated inBrackets hquote] at h
        obtain ⟨value, body, hbody, heq⟩ := quoted_body h
        simp only [List.cons_append, List.drop_succ_cons, List.drop_zero, List.length_cons,
          List.length_nil] at heq hlength ⊢
        rw [hbody, Quoted.body_append (ne_of_mem_quotes hquote).1 hbody (by omega)]

-- A line feed ends every piece, unless a backslash stands in front of it.
theorem piece_feed {line : List Char} (hfeed : '\n' ∉ line)
    (hslash : (c :: line).getLast? ≠ some '\\') (more : List Char) :
    piece inBrackets c (line ++ '\n' :: more) = piece inBrackets c line := by
  have hline : lineOf (line ++ '\n' :: more) = lineOf line := by
    unfold lineOf
    exact takeWhile_append_of_head (by simp) line
  have htail : ∀ {d : Char} {rest : List Char}, (d :: rest).getLast? ≠ some '\\' →
      rest.getLast? ≠ some '\\' := by
    intro d rest h
    cases rest with
    | nil => simp
    | cons e rest => exact h
  refine piece_congr hline (fun hc => ?_) (fun hc => ?_) fun hc quote hquote hhead => ?_
  · cases line with
    | nil => exact absurd (congrArg some hc) hslash
    | cons d line => exact Iff.rfl
  · exact Quoted.body_feed (ne_of_mem_quotes hc) hfeed (htail hslash) more
  · cases line with
    | nil => exact absurd (Option.some.inj hhead).symm (ne_of_mem_quotes hquote).2
    | cons d line =>
        exact Quoted.body_feed (ne_of_mem_quotes hquote) (fun h => hfeed (.tail _ h))
          (htail (htail hslash)) more

section Layout

-- The layout of the line that a text starts with, and the blocks that are open behind it.
def layoutOf (blocks : List Nat) (text : List Char) :
    Except Cause (List (TokenKind × String) × List Nat) :=
  let blanks := text.takeWhile fun c => c == ' ' || c == '\t'
  if State.lineIsBlank (text.drop blanks.length) then .ok ([], blocks)
  else relayout blocks (indentWidth blanks)

variable {state : State} {cause : Cause} {layout : List (TokenKind × String)} {blocks : List Nat}

theorem openLine_of_error (h : layoutOf state.blocks state.cursor.rest = .error cause) :
    state.openLine = .error ⟨cause, (state.cursor.skip state.blanks).pos⟩ := by
  unfold layoutOf at h
  dsimp only at h
  split at h
  · cases h
  · rename_i hfull
    unfold State.openLine
    dsimp only [Cursor.skip] at hfull ⊢
    rw [if_neg hfull, h]
    rfl

theorem openLine_of_layoutOf (h : layoutOf state.blocks state.cursor.rest = .ok (layout, blocks)) :
    state.openLine =
      .ok (layout.map (fun part => ⟨part.1, part.2, (state.cursor.skip state.blanks).pos⟩),
        { state with cursor := state.cursor.skip state.blanks, blocks }) := by
  unfold layoutOf at h
  unfold State.openLine
  dsimp only [Cursor.skip] at h ⊢
  split at h
  · rename_i hblank
    cases h
    rw [if_pos hblank]
    rfl
  · rename_i hfull
    rw [if_neg hfull, h]
    rfl

theorem lexLine_of_error (h : layoutOf state.blocks state.cursor.rest = .error cause) :
    lexLine state = .error ⟨cause, (state.cursor.skip state.blanks).pos⟩ := by
  rw [lexLine, openLine_of_error h]
  rfl

theorem lexLine_of_layoutOf (h : layoutOf state.blocks state.cursor.rest = .ok (layout, blocks)) :
    lexLine state = (lex { state with cursor := state.cursor.skip state.blanks, blocks }).map
      (layout.map (fun part => ⟨part.1, part.2, (state.cursor.skip state.blanks).pos⟩) ++ ·) :=
  lexLine_of_openLine (openLine_of_layoutOf h)

end Layout

theorem lex_feed (pos : Pos) (text : List Char) (blocks : List Nat) :
    lex ⟨⟨pos, '\n' :: text⟩, blocks, 0⟩ =
      (lexLine ⟨⟨pos.after ['\n'], text⟩, blocks, 0⟩).map ([⟨.newline, "\n", pos⟩] ++ ·) := by
  have hpiece : Indented.piece (0 < 0) '\n' text = .ok ⟨['\n'], some (.newline, "\n")⟩ := rfl
  have hstep : lex ⟨⟨pos, '\n' :: text⟩, blocks, 0⟩ = _ := lex_eq_line rfl hpiece rfl
  exact hstep

theorem placeless_map_append {x y : Except Failure (List Token)} {front other : List Token}
    (hfront : placeless front = placeless other) (h : placeless x = placeless y) :
    placeless (x.map (front ++ ·)) = placeless (y.map (other ++ ·)) := by
  match x, y with
  | .error failure, .error failure' => exact h
  | .error _, .ok _ | .ok _, .error _ => cases h
  | .ok l, .ok m =>
      have hlm : placeless l = placeless m := Except.ok.inj h
      refine congrArg Except.ok ?_
      rw [placeless_append, placeless_append, hfront, hlm]

-- Where a text stands shows in nothing but the places of its tokens.

theorem placeless_lexLine_of {brackets : Nat}
    (h : ∀ rest, rest.length ≤ text.length → ∀ blocks pos other,
      placeless (lex ⟨⟨pos, rest⟩, blocks, brackets⟩) =
        placeless (lex ⟨⟨other, rest⟩, blocks, brackets⟩)) (blocks : List Nat) (pos other : Pos) :
    placeless (lexLine ⟨⟨pos, text⟩, blocks, brackets⟩) =
      placeless (lexLine ⟨⟨other, text⟩, blocks, brackets⟩) := by
  cases hlayout : layoutOf blocks text with
  | error cause =>
      rw [lexLine_of_error hlayout, lexLine_of_error hlayout]
      rfl
  | ok found =>
      obtain ⟨layout, inner⟩ := found
      rw [lexLine_of_layoutOf hlayout, lexLine_of_layoutOf hlayout]
      refine placeless_map_append (placeless_map_congr fun _ _ => rfl) (h _ ?_ _ _ _)
      exact (List.drop_sublist _ _).length_le

theorem placeless_lex (text : List Char) (blocks : List Nat) (brackets : Nat) (pos other : Pos) :
    placeless (lex ⟨⟨pos, text⟩, blocks, brackets⟩) =
      placeless (lex ⟨⟨other, text⟩, blocks, brackets⟩) := by
  induction hn : text.length using Nat.strongRecOn generalizing text blocks brackets pos other with
  | ind n ih =>
      subst hn
      cases text with
      | nil =>
          rw [lex_of_end rfl, lex_of_end rfl, placeless_ok, placeless_ok, placeless_append,
            placeless_append, placeless_replicate, placeless_replicate]
          rfl
      | cons c rest =>
          cases hpiece : piece (0 < brackets) c rest with
          | error cause =>
              rw [lex_of_error rfl hpiece, lex_of_error rfl hpiece]
              rfl
          | ok found =>
              have hshorter : ((c :: rest).drop found.text.length).length < (c :: rest).length := by
                have := List.length_pos_iff.mpr (piece_ne_nil hpiece)
                simp only [List.length_drop, List.length_cons]
                omega
              have htokens : placeless (found.tokens pos) = placeless (found.tokens other) := by
                rw [Piece.placeless_tokens, Piece.placeless_tokens]
              by_cases htoken : found.token = some (.newline, "\n")
              · have hline : ∀ pos, lex ⟨⟨pos, c :: rest⟩, blocks, brackets⟩ = _ :=
                  fun pos => lex_eq_line rfl hpiece htoken
                rw [hline pos, hline other]
                refine placeless_map_append htokens (placeless_lexLine_of ?_ _ _ _)
                exact fun more hmore _ _ _ => ih _ (Nat.lt_of_le_of_lt hmore hshorter) _ _ _ _ _ rfl
              · have hbehind : ∀ pos, lex ⟨⟨pos, c :: rest⟩, blocks, brackets⟩ = _ :=
                  fun pos => lex_eq_piece rfl hpiece htoken
                rw [hbehind pos, hbehind other]
                exact placeless_map_append htokens (ih _ hshorter _ _ _ _ _ rfl)

theorem placeless_lexLine (text : List Char) (blocks : List Nat) (brackets : Nat) (pos other : Pos) :
    placeless (lexLine ⟨⟨pos, text⟩, blocks, brackets⟩) =
      placeless (lexLine ⟨⟨other, text⟩, blocks, brackets⟩) :=
  placeless_lexLine_of (fun rest _ blocks => placeless_lex rest blocks brackets) blocks pos other

end Indented

end Diglot
