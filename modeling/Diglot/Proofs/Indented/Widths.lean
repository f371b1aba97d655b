import Diglot.Proofs.Indented.Collapse
import Diglot.Proofs.Indented.Lines

namespace Diglot.Indented

variable {fragment : Fragment} {width wide : Nat}

section Seen

variable {widths : Bool} {x y : Except Failure (List Token)}

-- The tokens of a text as they are seen, or why it has none.
def seenTokens (widths : Bool) : Except Failure (List Token) → Except Cause (List Token)
  | .ok tokens => .ok (tokens.map (Token.seen widths))
  | .error failure => .error (failure.cause.seen widths)

theorem seenTokens_map_append {front other : List Token}
    (hfront : front.map (Token.seen widths) = other.map (Token.seen widths))
    (h : seenTokens widths x = seenTokens widths y) :
    seenTokens widths (x.map (front ++ ·)) = seenTokens widths (y.map (other ++ ·)) := by
  match x, y with
  | .error failure, .error failure' => exact h
  | .error _, .ok _ | .ok _, .error _ => cases h
  | .ok l, .ok m =>
      refine congrArg Except.ok ?_
      rw [List.map_append, List.map_append, hfront, Except.ok.inj h]

theorem seen_tokens (found : Piece) (pos other : Pos) :
    (found.tokens pos).map (Token.seen widths) = (found.tokens other).map (Token.seen widths) := by
  unfold Piece.tokens
  split <;> rfl

-- What is seen of tokens tells what they collapse to.
theorem collapse_of_seen {l m : List Token}
    (h : l.map (Token.seen widths) = m.map (Token.seen widths)) :
    collapse widths l = collapse widths m := by
  induction l generalizing m with
  | nil =>
      cases m with
      | nil => rfl
      | cons b m => cases h
  | cons a l ih =>
      cases m with
      | nil => cases h
      | cons b m =>
          obtain ⟨hab, hlm⟩ := List.cons.inj h
          have hkind : a.kind = b.kind := by rw [← Token.kind_seen widths a, hab, Token.kind_seen]
          rw [collapse, collapse, hab, hkind, ih hlm]

theorem collapsed_of_seen (h : seenTokens widths x = seenTokens widths y) :
    collapsed widths x = collapsed widths y := by
  match x, y with
  | .error failure, .error failure' => exact h
  | .error _, .ok _ | .ok _, .error _ => cases h
  | .ok l, .ok m => exact congrArg Except.ok (collapse_of_seen (Except.ok.inj h))

end Seen

-- The tokens of a line inside blocks of so many columns a level, whose depths are given.
section Scaling

variable {width wide column : Nat} {text behind other : List Char} {blocks inner : List Nat}
  {layout : List (TokenKind × String)}

theorem headD_scaled (depths : List Nat) (width : Nat) :
    (depths.map (· * width)).headD 0 = depths.headD 0 * width := by
  cases depths with
  | nil => exact (Nat.zero_mul width).symm
  | cons depth depths => rfl

theorem dropWhile_scaled (hwidth : 0 < width) (depths : List Nat) (depth : Nat) :
    (depths.map (· * width)).dropWhile (depth * width < ·) =
      (depths.dropWhile (depth < ·)).map (· * width) := by
  have hlt : ∀ outer, (depth * width < outer * width) = (depth < outer) := fun outer =>
    propext (Nat.mul_lt_mul_right hwidth)
  rw [List.dropWhile_map]
  simp only [Function.comp_def, hlt]

theorem relayout_scaled (hwidth : 0 < width) (depths : List Nat) (depth : Nat) :
    relayout (depths.map (· * width)) (depth * width) =
      if depths.headD 0 < depth then
        .ok ([(.indent, toString (depth * width))], (depth :: depths).map (· * width))
      else
        let kept := depths.dropWhile (depth < ·)
        if kept.headD 0 = depth then
          .ok (List.replicate (depths.length - kept.length) (.dedent, ""), kept.map (· * width))
        else .error (.inconsistentIndentation (depth * width)) := by
  have heq : ∀ outer, (outer * width = depth * width) = (outer = depth) := fun outer =>
    propext (Nat.mul_right_cancel_iff hwidth)
  simp only [relayout, headD_scaled, dropWhile_scaled hwidth, heq, List.length_map,
    Nat.mul_lt_mul_right hwidth, List.map_cons]

-- Two texts are read alike, up to the widths of their blocks, at the start of a line and inside
-- brackets, if the blocks around them are equally deep with levels of different widths.
structure Scaled (width wide : Nat) (text other : List Char) : Prop where
  line : ∀ (depths : List Nat) (pos place : Pos),
    seenTokens false (lexLine ⟨⟨pos, text⟩, depths.map (· * width), 0⟩) =
      seenTokens false (lexLine ⟨⟨place, other⟩, depths.map (· * wide), 0⟩)
  inside : ∀ (depths : List Nat) (brackets : Nat) (pos place : Pos), 0 < brackets →
    seenTokens false (lex ⟨⟨pos, text⟩, depths.map (· * width), brackets⟩) =
      seenTokens false (lex ⟨⟨place, other⟩, depths.map (· * wide), brackets⟩)

theorem scaled_nil : Scaled width wide [] [] := by
  have hend : ∀ (depths : List Nat) (brackets : Nat) (pos place : Pos),
      seenTokens false (lex ⟨⟨pos, []⟩, depths.map (· * width), brackets⟩) =
        seenTokens false (lex ⟨⟨place, []⟩, depths.map (· * wide), brackets⟩) := by
    intro depths brackets pos place
    rw [lex_of_end rfl, lex_of_end rfl]
    simp [seenTokens, Token.seen]
  refine ⟨fun depths pos place => ?_, fun depths brackets pos place _ => hend _ _ _ _⟩
  rw [lexLine_of_layoutOf rfl, lexLine_of_layoutOf rfl]
  exact seenTokens_map_append rfl (hend depths 0 pos place)

-- A text without a line feed that a line feed can follow: it does not join its line to the next.
structure Smooth (text : List Char) : Prop where
  feed : '\n' ∉ text
  slash : text.getLast? ≠ some '\\'

theorem Smooth.of_append {front : List Char} (h : Smooth (front ++ text)) : Smooth text := by
  refine ⟨fun hfeed => h.feed (List.mem_append_right _ hfeed), fun hslash => h.slash ?_⟩
  rw [List.getLast?_append, hslash, Option.some_or]

theorem token_ne_newline {brackets : Nat} {c : Char} {rest : List Char} {found : Piece}
    (hc : c ≠ '\n') (h : piece (0 < brackets) c rest = .ok found) :
    found.token ≠ some (.newline, "\n") := by
  intro htoken
  obtain ⟨more, htext, hsays⟩ := piece_cuts h
  have hspells := hsays .start
  simp only [Lexicon.Says, Part.ofPiece, htoken, Option.map_some, Lexicon.Spells] at hspells
  rw [hspells.1] at htext
  exact hc (List.cons.inj htext).1

-- The rest of a line, wherever it starts, in front of texts that are read alike.
theorem Scaled.rest (h : Scaled width wide behind other) (htext : Smooth text) (depths : List Nat)
    (brackets : Nat) (pos place : Pos) :
    seenTokens false (lex ⟨⟨pos, text ++ '\n' :: behind⟩, depths.map (· * width), brackets⟩) =
      seenTokens false (lex ⟨⟨place, text ++ '\n' :: other⟩, depths.map (· * wide), brackets⟩) := by
  induction hn : text.length using Nat.strongRecOn generalizing text brackets pos place with
  | ind n ih =>
      subst hn
      cases text with
      | nil =>
          by_cases hbrackets : 0 < brackets
          · have hpiece : ∀ rest, piece (0 < brackets) '\n' rest = .ok (.trivia ['\n']) := by
              simp [piece, hbrackets]
            have hstep : ∀ pos rest blocks, lex ⟨⟨pos, '\n' :: rest⟩, blocks, brackets⟩ = _ :=
              fun pos rest blocks => lex_eq_piece rfl (hpiece rest) (by simp [Piece.trivia])
            rw [List.nil_append, List.nil_append, hstep, hstep]
            exact seenTokens_map_append rfl (h.inside depths brackets _ _ hbrackets)
          · obtain rfl : brackets = 0 := by omega
            rw [List.nil_append, List.nil_append, lex_feed, lex_feed]
            exact seenTokens_map_append rfl (h.line depths _ _)
      | cons c line =>
          have hfeed : '\n' ∉ line := fun hmem => htext.feed (.tail _ hmem)
          have hc : c ≠ '\n' := fun hmem => htext.feed (hmem ▸ .head _)
          have hpiece : ∀ rest, piece (0 < brackets) c (line ++ '\n' :: rest) = _ :=
            piece_feed hfeed htext.slash
          cases hfound : piece (0 < brackets) c line with
          | error cause =>
              rw [List.cons_append, List.cons_append, lex_of_error rfl ((hpiece _).trans hfound),
                lex_of_error rfl ((hpiece _).trans hfound)]
              rfl
          | ok found =>
              obtain ⟨more, hmore, -⟩ := piece_cuts hfound
              have htoken := token_ne_newline hc hfound
              have hstep : ∀ pos rest blocks,
                  lex ⟨⟨pos, c :: line ++ '\n' :: rest⟩, blocks, brackets⟩ = _ :=
                fun pos rest blocks => lex_eq_piece rfl ((hpiece rest).trans hfound) htoken
              have hskip : ∀ pos rest blocks,
                  State.skip ⟨⟨pos, c :: line ++ '\n' :: rest⟩, blocks, brackets⟩ found =
                    ⟨⟨pos.after found.text, more ++ '\n' :: rest⟩, blocks,
                      bracketsAfter brackets found⟩ := by
                intro pos rest blocks
                rw [hmore, List.append_assoc, State.skip, Cursor.skip_append]
              rw [hstep, hstep, hskip, hskip]
              refine seenTokens_map_append (seen_tokens found _ _)
                (ih more.length ?_ (Smooth.of_append (hmore ▸ htext)) _ _ _ rfl)
              have hne := List.length_pos_iff.mpr (piece_ne_nil hfound)
              rw [hmore, List.length_append]
              omega

theorem lex_blanks (count : Nat) (pos : Pos) (text : List Char) (blocks : List Nat)
    (brackets : Nat) :
    ∃ place, lex ⟨⟨pos, List.replicate count ' ' ++ text⟩, blocks, brackets⟩ =
      lex ⟨⟨place, text⟩, blocks, brackets⟩ := by
  induction count generalizing pos with
  | zero => exact ⟨pos, rfl⟩
  | succ count ih =>
      obtain ⟨place, hplace⟩ := ih (pos.after [' '])
      have hpiece : piece (0 < brackets) ' ' (List.replicate count ' ' ++ text) =
          .ok (.trivia [' ']) := rfl
      have htoken : (Piece.trivia [' ']).token ≠ some (.newline, "\n") := by simp [Piece.trivia]
      have hstep : lex ⟨⟨pos, ' ' :: (List.replicate count ' ' ++ text)⟩, blocks, brackets⟩ =
          (lex ⟨⟨pos.after [' '], List.replicate count ' ' ++ text⟩, blocks, brackets⟩).map
            ([] ++ ·) := lex_eq_piece rfl hpiece htoken
      refine ⟨place, ?_⟩
      rw [List.replicate_succ, List.cons_append, hstep, hplace]
      cases lex ⟨⟨place, text⟩, blocks, brackets⟩ <;> rfl

-- The text of a line behind its indentation.
structure Tidy (text : List Char) : Prop extends Smooth text where
  opens : text.head?.any (fun c => c != ' ' && c != '\t') = true

theorem Tidy.takeWhile (h : Tidy text) (column : Nat) (rest : List Char) :
    (List.replicate column ' ' ++ (text ++ rest)).takeWhile (fun c => c == ' ' || c == '\t') =
      List.replicate column ' ' := by
  have hopens := h.opens
  cases text with
  | nil => cases hopens
  | cons c text =>
      have hhead : (c :: text ++ rest).head?.any (fun c => c == ' ' || c == '\t') = false := by
        simpa using hopens
      rw [takeWhile_append_of_head hhead]
      simp

-- A line is blank or not at every depth and whatever follows it.
theorem Tidy.layoutOf (h : Tidy text) (blocks : List Nat) (column : Nat) (rest : List Char) :
    Indented.layoutOf blocks (List.replicate column ' ' ++ (text ++ rest)) =
      if State.lineIsBlank text then .ok ([], blocks) else relayout blocks column := by
  have hopens := h.opens
  have hblank : State.lineIsBlank (text ++ rest) = State.lineIsBlank text := by
    cases text with
    | nil => cases hopens
    | cons c text => rfl
  simp only [Indented.layoutOf, h.takeWhile, List.drop_left, hblank, indentWidth_replicate]

theorem Tidy.lexLine_of_layoutOf (h : Tidy text) {rest : List Char}
    (hlayout : Indented.layoutOf blocks (List.replicate column ' ' ++ (text ++ rest)) =
      .ok (layout, inner)) (pos : Pos) :
    ∃ place, lexLine ⟨⟨pos, List.replicate column ' ' ++ (text ++ rest)⟩, blocks, 0⟩ =
      (lex ⟨⟨place, text ++ rest⟩, inner, 0⟩).map
        (layout.map (fun part => ⟨part.1, part.2, place⟩) ++ ·) := by
  have hblanks : (State.mk ⟨pos, List.replicate column ' ' ++ (text ++ rest)⟩ blocks 0).blanks =
      List.replicate column ' ' := h.takeWhile column rest
  refine ⟨pos.after (List.replicate column ' '), ?_⟩
  rw [Indented.lexLine_of_layoutOf hlayout]
  dsimp only
  rw [hblanks, Cursor.skip_append]

-- A line whose layouts differ in nothing but the widths that they state.
theorem Scaled.laid (h : Scaled width wide behind other) (htext : Tidy text) {wider : List Nat}
    {further : Nat} {like : List (TokenKind × String)}
    (hlayout : Indented.layoutOf blocks (List.replicate column ' ' ++ (text ++ '\n' :: behind)) =
      .ok (layout, inner.map (· * width)))
    (hlike : Indented.layoutOf wider (List.replicate further ' ' ++ (text ++ '\n' :: other)) =
      .ok (like, inner.map (· * wide)))
    (hseen : ∀ pos place : Pos, (layout.map fun part => Token.seen false ⟨part.1, part.2, pos⟩) =
      like.map fun part => Token.seen false ⟨part.1, part.2, place⟩) (pos place : Pos) :
    seenTokens false
        (lexLine ⟨⟨pos, List.replicate column ' ' ++ (text ++ '\n' :: behind)⟩, blocks, 0⟩) =
      seenTokens false
        (lexLine ⟨⟨place, List.replicate further ' ' ++ (text ++ '\n' :: other)⟩, wider, 0⟩) := by
  obtain ⟨start, hstart⟩ := htext.lexLine_of_layoutOf hlayout pos
  obtain ⟨begin, hbegin⟩ := htext.lexLine_of_layoutOf hlike place
  rw [hstart, hbegin]
  refine seenTokens_map_append ?_ (h.rest htext.toSmooth inner 0 start begin)
  simpa [Function.comp_def] using hseen start begin

theorem Scaled.cons (hwidth : 0 < width) (hwide : 0 < wide) (h : Scaled width wide behind other)
    (htext : Tidy text) (depth : Nat) :
    Scaled width wide (List.replicate (depth * width) ' ' ++ (text ++ '\n' :: behind))
      (List.replicate (depth * wide) ' ' ++ (text ++ '\n' :: other)) := by
  refine ⟨fun depths pos place => ?_, fun depths brackets pos place _ => ?_⟩
  · have hlayout := htext.layoutOf (depths.map (· * width)) (depth * width) ('\n' :: behind)
    have hlike := htext.layoutOf (depths.map (· * wide)) (depth * wide) ('\n' :: other)
    by_cases hblank : State.lineIsBlank text = true
    · rw [if_pos hblank] at hlayout hlike
      exact h.laid htext hlayout hlike (fun _ _ => rfl) pos place
    · rw [if_neg hblank, relayout_scaled hwidth] at hlayout
      rw [if_neg hblank, relayout_scaled hwide] at hlike
      by_cases hdeeper : depths.headD 0 < depth
      · rw [if_pos hdeeper] at hlayout hlike
        exact h.laid htext hlayout hlike (fun _ _ => rfl) pos place
      · rw [if_neg hdeeper] at hlayout hlike
        dsimp only at hlayout hlike
        split at hlayout
        · rename_i hkept
          rw [if_pos hkept] at hlike
          exact h.laid htext hlayout hlike (fun _ _ => by simp [Token.seen]) pos place
        · rename_i hkept
          rw [if_neg hkept] at hlike
          rw [lexLine_of_error hlayout, lexLine_of_error hlike]
          rfl
  · obtain ⟨start, hstart⟩ := lex_blanks (depth * width) pos (text ++ '\n' :: behind)
      (depths.map (· * width)) brackets
    obtain ⟨begin, hbegin⟩ := lex_blanks (depth * wide) place (text ++ '\n' :: other)
      (depths.map (· * wide)) brackets
    rw [hstart, hbegin]
    exact h.rest htext.toSmooth depths brackets start begin

theorem scaled_lines (hwidth : 0 < width) (hwide : 0 < wide) {lines : List Line}
    (h : ∀ line ∈ lines, Tidy line.text.toList) (placeholders : Nat) :
    Scaled width wide (Fragment.textAt width 0 ⟨lines, placeholders⟩)
      (Fragment.textAt wide 0 ⟨lines, placeholders⟩) := by
  induction lines with
  | nil => exact scaled_nil
  | cons line lines ih =>
      obtain ⟨hline, hlines⟩ := List.forall_mem_cons.mp h
      have hscaled := (ih hlines).cons hwidth hwide hline line.depth
      simpa [Fragment.textAt] using hscaled

end Scaling

-- Tidy lines have the same tokens, but for the widths of their blocks, whatever the width of a level.
theorem seenTokens_render (h : ∀ line ∈ fragment.lines, Tidy line.text.toList) (hwidth : 0 < width)
    (hwide : 0 < wide) :
    seenTokens false (tokenize (fragment.render width)) =
      seenTokens false (tokenize (fragment.render wide)) := by
  have hline := (scaled_lines hwidth hwide h fragment.placeholders).line [] .start .start
  change seenTokens false (lexLine ⟨.ofText (fragment.render width).toList, [], 0⟩) =
    seenTokens false (lexLine ⟨.ofText (fragment.render wide).toList, [], 0⟩)
  rw [Fragment.toList_render, Fragment.toList_render]
  exact hline

-- So they are read alike.
theorem outcome_render (h : ∀ line ∈ fragment.lines, Tidy line.text.toList) (hwidth : 0 < width)
    (hwide : 0 < wide) :
    outcome false (Diglot.parse .pythonScript (fragment.render width)) =
      outcome false (Diglot.parse .pythonScript (fragment.render wide)) :=
  outcome_parse_source
    (congrArg _ (collapsed_of_seen (seenTokens_render h hwidth hwide)))

end Diglot.Indented
