import Diglot.Proofs.Indented.Agree
import Diglot.Proofs.Indented.Runs

namespace Diglot

-- Whether a cause comes from blocks that are closed too often or not at all.
def Cause.blamesBlocks : Cause → Bool
  | .unbalancedDedent | .refused _ => true
  | .invalidInterpolation reason => reason.blamesBlocks
  | _ => false

namespace Indented

open Diglot.Parser

variable {text source : List Char} {embedded other : Embedder}
  {tokens : List Token}

-- The sources that are embedded in the text of an interpolated string.
def embeddedSources : List Char → List (List Char)
  | [] => []
  | '{' :: '{' :: rest => embeddedSources rest
  | '}' :: '}' :: rest => embeddedSources rest
  | '{' :: rest =>
      match _hclose : Embedding.close 0 none rest with
      | none => []
      | some (source, behind) => source :: embeddedSources behind
  | _ :: rest => embeddedSources rest
termination_by text => text.length
decreasing_by
  · simp only [List.length_cons]
    omega
  · simp only [List.length_cons]
    omega
  · have hrest := congrArg List.length (Embedding.append_of_close _hclose)
    simp only [List.length_append, List.length_cons] at hrest ⊢
    omega
  · simp only [List.length_cons]
    omega

theorem length_lt_of_mem_embeddedSources (h : source ∈ embeddedSources text) :
    source.length < text.length := by
  fun_induction embeddedSources text with
  | case1 => cases h
  | case2 rest ih | case3 rest ih =>
      have := ih h
      simp only [List.length_cons]
      omega
  | case4 => cases h
  | case5 rest hnot source' behind hclose ih =>
      have hrest := congrArg List.length (Embedding.append_of_close hclose)
      simp only [List.length_append, List.length_cons] at hrest ⊢
      rcases List.mem_cons.mp h with rfl | h
      · omega
      · have := ih h
        omega
  | case6 c rest _ _ _ ih =>
      have := ih h
      simp only [List.length_cons]
      omega

-- Nothing else is read as an embedded expression.
theorem segments_congr (h : ∀ source ∈ embeddedSources text, embedded source = other source) :
    segments embedded text = segments other text := by
  fun_induction embeddedSources text with
  | case1 => simp [segments]
  | case2 rest ih | case3 rest ih => simp [segments, ih h]
  | case4 rest hnot hclose =>
      rw [segments_unclosed _ hnot hclose, segments_unclosed _ hnot hclose]
  | case5 rest hnot source behind hclose ih =>
      rw [segments_closed _ hnot hclose, segments_closed _ hnot hclose, h source (.head _),
        ih fun other hother => h other (.tail _ hother)]
  | case6 c rest h1 h2 h3 ih =>
      rw [segments.eq_5 _ _ _ h1 h2 h3, segments.eq_5 _ _ _ h1 h2 h3, ih h]

-- They fail at a brace that is not closed, or where an embedded expression does.
theorem segments_eq_error {reason : Cause} (h : segments embedded text = .error reason) :
    (∃ rest, '{' :: rest <:+ text ∧ Embedding.close 0 none rest = none ∧
      reason = .unclosedEmbedding) ∨
    ∃ source ∈ embeddedSources text, embedded source = .error reason := by
  have hbehind : ∀ {behind whole : List Char}, behind <:+ whole →
      (∃ rest, '{' :: rest <:+ behind ∧ Embedding.close 0 none rest = none ∧
        reason = .unclosedEmbedding) →
      ∃ rest, '{' :: rest <:+ whole ∧ Embedding.close 0 none rest = none ∧
        reason = .unclosedEmbedding := by
    rintro behind whole hsuffix ⟨rest, hopen, hclose⟩
    exact ⟨rest, hopen.trans hsuffix, hclose⟩
  fun_induction embeddedSources text with
  | case1 => simp [segments] at h
  | case2 rest ih | case3 rest ih =>
      rw [segments] at h
      exact (ih (error_of_map h)).imp_left
        (hbehind ((List.suffix_cons _ _).trans (List.suffix_cons _ _)))
  | case4 rest hnot hclose =>
      rw [segments_unclosed _ hnot hclose] at h
      cases h
      exact .inl ⟨rest, List.suffix_refl _, hclose, rfl⟩
  | case5 rest hnot source behind hclose ih =>
      rw [segments_closed _ hnot hclose] at h
      rcases error_of_bind h with hvalue | ⟨value, -, h⟩
      · exact .inr ⟨source, .head _, hvalue⟩
      rcases error_of_bind h with hrest | ⟨following, -, hok⟩
      · have hsuffix : behind <:+ '{' :: rest :=
          ⟨'{' :: source ++ ['}'], by simp [Embedding.append_of_close hclose]⟩
        refine (ih hrest).imp (hbehind hsuffix) ?_
        rintro ⟨other, hother, heq⟩
        exact ⟨other, .tail _ hother, heq⟩
      · cases hok
  | case6 c rest h1 h2 h3 ih =>
      rw [segments.eq_5 _ _ _ h1 h2 h3] at h
      exact (ih (error_of_map h)).imp_left (hbehind (List.suffix_cons _ _))

theorem length_interpolated_lt {source : String} (h : tokenize source = .ok tokens) {token : Token}
    (hmem : token ∈ tokens) (hkind : token.kind = .interpolated) :
    token.lexeme.length < source.length := by
  obtain ⟨steps, hruns, rfl⟩ := tokenize_eq_ok_iff.mp h
  obtain ⟨part, hpart, htoken⟩ := List.mem_filterMap.mp hmem
  obtain ⟨before, after, hparts⟩ := List.append_of_mem hpart
  have hcovers := hruns.covers
  have hsaid := (hcovers.tiles before part after hparts).1
  simp only [Lexicon.Says, htoken, Lexicon.Spells, hkind] at hsaid
  obtain ⟨quote, body, -, htext, hbody⟩ := hsaid
  have hvalue := Quoted.length_lt_of_body hbody
  have hlength := congrArg List.length hcovers.text
  rw [hparts, Part.textOf_append, Part.textOf_cons, htext] at hlength
  simp only [List.length_append, List.length_cons, Cursor.ofText, String.length_toList] at hlength
  rw [String.length_toList] at hvalue
  omega

theorem length_trimBlanks_le (text : List Char) : (trimBlanks text).length ≤ text.length := by
  have hfront := (List.dropWhile_sublist isBlank (l := text)).length_le
  have hback := (List.dropWhile_sublist isBlank
    (l := (text.dropWhile isBlank).reverse)).length_le
  rw [trimBlanks, List.length_reverse]
  rw [List.length_reverse] at hback
  omega

-- The interpolated texts inside a source are shorter than it.
theorem length_inner_lt (h : tokenize (String.ofList (trimBlanks source)) = .ok tokens)
    {token : Token} (hmem : token ∈ tokens) (hkind : token.kind = .interpolated) :
    token.lexeme.length < source.length := by
  have hlexeme := length_interpolated_lt h hmem hkind
  have htext := length_trimBlanks_le source
  rw [String.length_ofList] at hlexeme
  omega

-- Two readers of embedded expressions that agree on all that are shorter than the interpolated
-- texts of a stream.
theorem embeds_ofTokens {blocks : TokenStream.Blocks}
    (hshaped : ∀ source e, embedded source = .ok e →
      e.Shaped .pythonScript)
    (h : ∀ token ∈ tokens, token.kind = .interpolated → ∀ source : List Char,
      source.length < token.lexeme.length → embedded source = other source) :
    Embeds (TokenStream.ofTokens tokens blocks).tokens embedded other := by
  refine ⟨fun token hmem hkind => ?_, hshaped⟩
  have hmem := (TokenStream.mem_tokens_ofTokens hmem).resolve_right (by simp [hkind])
  refine segments_congr fun source hsource => h token hmem hkind source ?_
  rw [← String.length_toList]
  exact length_lt_of_mem_embeddedSources hsource

-- Reads an expression off the front of a list of tokens.
theorem expression_meets (hembeds : Embeds (TokenStream.withLayout tokens).tokens embedded other) :
    (setting (TokenStream.withLayout tokens).tokens embedded).Meets strict
      (fun e _ => (setting (TokenStream.withLayout tokens).tokens embedded).IsExpr e)
      (.withLayout tokens)
      (expression embedded (TokenStream.withLayout tokens).size (.withLayout tokens))
      (expression other (TokenStream.withLayout tokens).size (.withLayout tokens)) :=
  expression_agree hembeds (Nat.le_refl _) (Nat.le_refl _) _
    ⟨TokenStream.ended_ofTokens tokens _, List.suffix_refl _⟩ (Nat.le_refl _)

-- Embedded expressions are read with the same readers, so that they are shaped at every depth.
theorem embeddedExpr_shaped (limit : Nat) (source : List Char) (e : Expr)
    (h : embeddedExpr limit source = .ok e) : e.Shaped .pythonScript := by
  induction limit generalizing source e with
  | zero => cases h
  | succ limit ih =>
      simp only [embeddedExpr] at h
      split at h
      · cases h
      split at h
      · cases h
      split at h
      · cases h
      · rename_i hfound
        split at h
        · cases h
          exact ((expression_meets ⟨fun _ _ _ => rfl, ih⟩).ok hfound).2.2.shaped
        · cases h

theorem embeds_self (limit : Nat) (tokens : List Token) :
    Embeds tokens (embeddedExpr limit) (embeddedExpr limit) :=
  ⟨fun _ _ _ => rfl, embeddedExpr_shaped limit⟩

-- A limit that is longer than the source does not matter.
theorem embeddedExpr_eq {i j : Nat} (hi : source.length < i) (hj : source.length < j) :
    embeddedExpr i source = embeddedExpr j source := by
  induction hn : source.length using Nat.strongRecOn generalizing source i j with
  | ind n ih =>
      subst hn
      obtain ⟨i, rfl⟩ := Nat.exists_eq_add_one.mpr (Nat.zero_lt_of_lt hi)
      obtain ⟨j, rfl⟩ := Nat.exists_eq_add_one.mpr (Nat.zero_lt_of_lt hj)
      cases htokens : tokenize (String.ofList (trimBlanks source)) with
      | error failure => simp only [embeddedExpr, htokens]
      | ok tokens =>
          have hembeds : Embeds (TokenStream.withLayout tokens).tokens (embeddedExpr i)
              (embeddedExpr j) := by
            refine embeds_ofTokens (embeddedExpr_shaped i) fun token hmem hkind inner hinner => ?_
            have hlexeme := length_inner_lt htokens hmem hkind
            exact ih inner.length (by omega) (by omega) (by omega) rfl
          simp only [embeddedExpr, htokens, (expression_meets hembeds).same]

-- A reader of embedded expressions whose limit is always large enough.
def readSource (source : List Char) : Except Cause Expr := embeddedExpr (source.length + 1) source

theorem length_le_longestLexeme {token : Token} (h : token ∈ tokens) :
    token.lexeme.length ≤ longestLexeme tokens := by
  have hfold : ∀ (tokens : List Token) (longest : Nat),
      longest ≤ tokens.foldl (fun longest token => max longest token.lexeme.length) longest ∧
        ∀ token ∈ tokens, token.lexeme.length ≤
          tokens.foldl (fun longest token => max longest token.lexeme.length) longest := by
    intro tokens
    induction tokens with
    | nil => simp
    | cons first rest ih =>
        intro longest
        obtain ⟨hstart, hrest⟩ := ih (max longest first.lexeme.length)
        rw [List.foldl_cons]
        refine ⟨by omega, fun other hother => ?_⟩
        rcases List.mem_cons.mp hother with rfl | hother
        · omega
        · exact hrest other hother
  exact (hfold tokens 0).2 token h

-- It reads what a limit allows that no interpolated text is longer than.
theorem embeds_readSource {limit : Nat} {blocks : TokenStream.Blocks}
    (h : ∀ token ∈ tokens, token.kind = .interpolated → token.lexeme.length ≤ limit) :
    Embeds (TokenStream.ofTokens tokens blocks).tokens readSource (embeddedExpr limit) :=
  embeds_ofTokens (fun source => embeddedExpr_shaped _ source) fun token hmem hkind _ hsource =>
    embeddedExpr_eq (Nat.lt_succ_self _) (Nat.lt_of_lt_of_le hsource (h token hmem hkind))

section Causes

variable {state : State} {failure : Failure}

theorem blamesBlocks_of_piece {inBrackets : Bool} {c : Char} {rest : List Char} {cause : Cause}
    (h : piece inBrackets c rest = .error cause) : cause.blamesBlocks = false := by
  have hquoted : ∀ {kind unterminated opening quote rest},
      Piece.quoted kind unterminated opening quote rest = .error cause → cause = unterminated := by
    intro kind unterminated opening quote rest h
    unfold Piece.quoted at h
    split at h <;> cases h
    rfl
  unfold piece at h
  split at h
  · cases h
  split at h
  · cases h
  split at h
  · cases h
  split at h
  · cases h
  split at h
  · rw [hquoted h]
    rfl
  split at h
  · rw [hquoted h]
    rfl
  split at h
  · rw [hquoted h]
    rfl
  split at h
  · unfold Piece.number at h
    split at h <;> cases h
    rfl
  split at h
  · cases h
  · unfold Piece.operator at h
    split at h <;> cases h
    rfl

theorem blamesBlocks_of_openLine (h : state.openLine = .error failure) :
    failure.cause.blamesBlocks = false := by
  unfold State.openLine at h
  dsimp only at h
  split at h
  · cases h
  · split at h
    · rename_i cause hrelayout
      cases h
      unfold relayout at hrelayout
      split at hrelayout
      · cases hrelayout
      · dsimp only at hrelayout
        split at hrelayout <;> cases hrelayout
        rfl
    · cases h

theorem blamesBlocks_of_lex (h : lex state = .error failure) :
    failure.cause.blamesBlocks = false := by
  fun_induction lex state with
  | case1 => cases h
  | case2 state c rest hrest cause hpiece =>
      cases h
      exact blamesBlocks_of_piece hpiece
  | case3 state c rest hrest found hpiece shorter hnewline failure' hline =>
      cases h
      exact blamesBlocks_of_openLine hline
  | case4 state c rest hrest found hpiece shorter hnewline layout next hline shorter' ih
  | case5 state c rest hrest found hpiece shorter hnewline ih =>
      rcases error_of_bind h with hnext | ⟨tokens, -, hok⟩
      · exact ih hnext
      · cases hok

theorem blamesBlocks_of_tokenize {source : String} (h : tokenize source = .error failure) :
    failure.cause.blamesBlocks = false := by
  rcases error_of_bind h with hline | ⟨opened, -, h⟩
  · exact blamesBlocks_of_openLine hline
  · rcases error_of_bind h with hlex | ⟨tokens, -, hok⟩
    · exact blamesBlocks_of_lex hlex
    · cases hok

-- What is said of the reasons why sources are refused: they are empty or have no tokens, their
-- tokens are no expression, or more of them follow behind one.
structure Explains (Q : List Char → Cause → Prop) : Prop where
  empty : ∀ {source}, trimBlanks source = [] → Q source .emptyEmbedding
  unlexed : ∀ {source failure}, tokenize (String.ofList (trimBlanks source)) = .error failure →
    Q source failure.cause
  unread : ∀ {source tokens embedded s failure},
    tokenize (String.ofList (trimBlanks source)) = .ok tokens →
    (TokenStream.withLayout tokens).Reaches s →
    (setting (TokenStream.withLayout tokens).tokens embedded).Fails s failure →
    (s.current.kind = .interpolated → ∀ inner ∈ embeddedSources s.current.lexeme.toList,
      ∀ reason, embedded inner = .error reason → Q inner reason) → Q source failure.cause
  trailing : ∀ {source tokens token},
    tokenize (String.ofList (trimBlanks source)) = .ok tokens →
    token ∈ (TokenStream.withLayout tokens).tokens → token.kind ≠ .eof →
      Q source (.trailingToken token.kind token.lexeme)

-- The sources that are embedded in a source are shorter, and are explained first.
theorem Explains.of_error {Q : List Char → Cause → Prop} (hQ : Explains Q) {limit : Nat}
    {reason : Cause} (hlimit : source.length < limit)
    (h : embeddedExpr limit source = .error reason) : Q source reason := by
  induction limit generalizing source reason with
  | zero => exact absurd hlimit (Nat.not_lt_zero _)
  | succ limit ih =>
      simp only [embeddedExpr] at h
      split at h
      · rename_i hempty
        cases h
        exact hQ.empty (List.isEmpty_iff.mp hempty)
      split at h
      · rename_i hlexed
        cases h
        exact hQ.unlexed hlexed
      rename_i found hlexed
      have hmeets := expression_meets (embeds_self limit (TokenStream.withLayout found).tokens)
      have hended := TokenStream.ended_ofTokens found (some [])
      split at h
      · rename_i failure hfailed
        cases h
        obtain ⟨t, hreach, hfails⟩ := hmeets.error hfailed
        refine hQ.unread hlexed hreach hfails fun hkind inner hinner reason hreason => ?_
        have hmem := (TokenStream.mem_tokens_ofTokens (hreach.mem_tokens hended
          (.head _))).resolve_right (by simp [hkind])
        have hlexeme := length_inner_lt hlexed hmem hkind
        have hshorter := length_lt_of_mem_embeddedSources hinner
        rw [String.length_toList] at hshorter
        exact ih (by omega) hreason
      · rename_i e behind hfound
        split at h
        · cases h
        · rename_i hkind
          cases h
          have hdrop := TokenStream.reaches_dropWhile (p := (·.kind == .newline))
            (fun token h => by simp [Token.isSolid, eq_of_beq h]) behind
          exact hQ.trailing hlexed (((hmeets.ok hfound).1.trans hdrop).mem_tokens hended (.head _))
            (by simpa using hkind)

end Causes

end Indented

end Diglot
