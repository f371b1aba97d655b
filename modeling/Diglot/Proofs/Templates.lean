import Diglot.Proofs.Braced.Enclosure
import Diglot.Proofs.Braced.Trimmed
import Diglot.Proofs.Braced.Words
import Diglot.Proofs.Interpolation
import Diglot.Proofs.Partition
import Diglot.Proofs.Untemplated

namespace Diglot

-- A template with one expression in it. Its writer looks for the end of the expression by braces and
-- quotes alone, and the lexer knows escapes and comments too.

namespace Segment

variable {ε : Type}

-- A text as a segment, unless it is empty.
def ofText (text : List Char) : List (Segment ε) :=
  if text.isEmpty then [] else [.text (String.ofList text)]

-- How many characters the texts among some segments have.
def textLength : List (Segment ε) → Nat
  | [] => 0
  | text value :: rest => value.length + textLength rest
  | expr _ :: rest => textLength rest

theorem textLength_append (segments more : List (Segment ε)) :
    textLength (segments ++ more) = textLength segments + textLength more := by
  induction segments with
  | nil => simp [textLength]
  | cons first rest ih =>
      cases first with
      | text value => simp [textLength, ih, Nat.add_assoc]
      | expr value => simp [textLength, ih]

theorem textLength_ofText (text : List Char) :
    textLength (ofText text : List (Segment ε)) = text.length := by
  cases text with
  | nil => rfl
  | cons c text => simp only [ofText, List.isEmpty_cons, Bool.false_eq_true, if_false, textLength,
      String.length_ofList, Nat.add_zero]

theorem exprs_ofText (text : List Char) : (ofText text).filterMap (·.expr?) = [] := by
  cases text <;> simp [ofText, expr?]

theorem textLength_consChars (text : List Char) (segments : List (Segment Expr)) :
    textLength (Braced.consChars text segments) = text.length + textLength segments := by
  have hcons : ∀ c (segments : List (Segment Expr)),
      textLength (consChar c segments) = textLength segments + 1 := by
    intro c segments
    rcases segments with _ | ⟨_ | _, rest⟩ <;> simp [consChar, textLength] <;> omega
  induction text with
  | nil => simp [Braced.consChars]
  | cons c text ih =>
      have hstep : textLength (Braced.consChars (c :: text) segments) =
          textLength (Braced.consChars text segments) + 1 := hcons c _
      rw [hstep, ih, List.length_cons]
      omega

-- A text in front of segments that do not start with one.
theorem consChars_eq_ofText (text : List Char) {segments : List (Segment Expr)}
    (h : segments.head?.any isText = false) :
    Braced.consChars text segments = ofText text ++ segments := by
  cases text with
  | nil => rfl
  | cons c text => exact foldr_consChar h (List.cons_ne_nil c text)

end Segment

namespace Braced

section Splitting

variable {before source behind rest : List Char} {value : Expr}

-- A text without backslashes, backticks and dollar signs.
abbrev Literal (text : List Char) : Prop := ∀ c ∈ text, c ∉ ['\\', '`', '$']

theorem templateSegments_literal (h : Literal before) (rest : List Char) :
    templateSegments (before ++ rest) =
      (consChars before (templateSegments rest).1, (templateSegments rest).2) := by
  induction before with
  | nil => rfl
  | cons c before ih =>
      obtain ⟨hc, hbefore⟩ := List.forall_mem_cons.mp h
      simp only [List.mem_cons, List.not_mem_nil, or_false, not_or] at hc
      rw [List.cons_append, templateSegments_cons hc.1 fun hdollar => absurd hdollar hc.2.2,
        ih hbefore]
      rfl

theorem templateSegments_ofText (h : Literal behind) :
    templateSegments behind = (Segment.ofText behind, 0) := by
  have hsegments := templateSegments_literal h []
  have hnil : templateSegments [] = ([], 0) := by simp [templateSegments]
  rw [List.append_nil, hnil] at hsegments
  rw [hsegments, Segment.consChars_eq_ofText behind rfl, List.append_nil]

-- The raw text of a template with an expression between two texts.
def rawTemplate (before source behind : List Char) : List Char :=
  before ++ '$' :: '{' :: (source ++ '}' :: behind)

theorem templateSegments_embedded (hbefore : Literal before) (hbehind : Literal behind)
    (hpasses : Embedding.passes source = true) (hread : readEmbedded? source = some value) :
    templateSegments (rawTemplate before source behind) =
      (Segment.ofText before ++ .expr value :: Segment.ofText behind, 0) := by
  rw [rawTemplate, templateSegments_literal hbefore,
    templateSegments_closed (Embedding.close_of_passes hpasses behind) hread,
    templateSegments_ofText hbehind, Segment.consChars_eq_ofText before rfl]

theorem templateSegments_unclosed (h : Embedding.close 0 none rest = none) :
    templateSegments ('$' :: '{' :: rest) = (consChars ('$' :: '{' :: rest) [], 0) := by
  rw [templateSegments.eq_3]
  split
  · rfl
  · rename_i hsome
    rw [h] at hsome
    cases hsome

theorem unread_of_readEmbedded? (hclose : Embedding.close 0 none rest = some (source, behind))
    (hread : readEmbedded? source = none) :
    (templateSegments ('$' :: '{' :: rest)).2 = (templateSegments behind).2 + 1 := by
  rw [templateSegments.eq_3]
  split
  · rename_i hnone
    rw [hclose] at hnone
    cases hnone
  · rename_i hsome
    rw [hclose] at hsome
    cases hsome
    rw [hread]

-- Where no part is read as an expression and none looks like one, all that follows a brace is text,
-- and so is the brace.
theorem length_lt_textLength (hbehind : Literal behind) {front : List Char}
    (hexprs : (templateSegments (front ++ '}' :: behind)).1.filterMap (·.expr?) = [])
    (hunread : (templateSegments (front ++ '}' :: behind)).2 = 0) :
    behind.length < Segment.textLength (templateSegments (front ++ '}' :: behind)).1 := by
  have hshort : ∀ c, behind.length <
      Segment.textLength (Segment.consChar c (templateSegments behind).1) := by
    intro c
    have hlength : Segment.textLength (Segment.consChar c (templateSegments behind).1) = _ :=
      Segment.textLength_consChars [c] _
    rw [hlength, templateSegments_ofText hbehind, Segment.textLength_ofText, List.length_singleton]
    omega
  induction hlength : front.length using Nat.strongRecOn generalizing front with
  | ind length ih =>
      subst hlength
      -- One character more in front of what follows.
      have hlonger : ∀ c {rest : List Char}, rest.length < front.length →
          (Segment.consChar c (templateSegments (rest ++ '}' :: behind)).1).filterMap (·.expr?) = [] →
          (templateSegments (rest ++ '}' :: behind)).2 = 0 →
          behind.length <
            Segment.textLength (Segment.consChar c (templateSegments (rest ++ '}' :: behind)).1) := by
        intro c rest hrest hexprs hunread
        rw [Segment.exprs_consChar] at hexprs
        have hmore := ih _ hrest hexprs hunread rfl
        have hlength : Segment.textLength (Segment.consChar c
            (templateSegments (rest ++ '}' :: behind)).1) = _ := Segment.textLength_consChars [c] _
        omega
      cases front with
      | nil =>
          rw [List.nil_append, templateSegments_cons (by decide) fun h => absurd h (by decide)]
          exact hshort '}'
      | cons c front =>
          rw [List.cons_append] at hexprs hunread ⊢
          by_cases hslash : c = '\\'
          · subst hslash
            cases front with
            | nil =>
                rw [List.nil_append, templateSegments_escape]
                exact hshort _
            | cons d front =>
                rw [List.cons_append, templateSegments_escape] at hexprs hunread ⊢
                exact hlonger _ (by simp only [List.length_cons]; omega) hexprs hunread
          by_cases hopen : c = '$' ∧ front.head? = some '{'
          · obtain ⟨rfl, hbrace⟩ := hopen
            obtain ⟨front, rfl⟩ := List.head?_eq_some_iff.mp hbrace
            rw [List.cons_append] at hexprs hunread ⊢
            cases hclose : Embedding.close 0 none (front ++ '}' :: behind) with
            | none =>
                rw [templateSegments_unclosed hclose, Segment.textLength_consChars]
                simp only [List.length_cons, List.length_append]
                omega
            | some found =>
                obtain ⟨source, rest⟩ := found
                cases hread : readEmbedded? source with
                | none =>
                    rw [unread_of_readEmbedded? hclose hread] at hunread
                    cases hunread
                | some value =>
                    rw [templateSegments_closed hclose hread] at hexprs
                    cases hexprs
          · have hbrace : c = '$' → (front ++ '}' :: behind).head? ≠ some '{' := by
              intro hc hhead
              cases front with
              | nil => cases hhead
              | cons d front => exact hopen ⟨hc, hhead⟩
            rw [templateSegments_cons hslash hbrace] at hexprs hunread ⊢
            exact hlonger c (by simp) hexprs hunread

-- If the template is split at the ends of the expression, the search for them goes over it.
theorem passes_of_templateSegments (hbefore : Literal before) (hbehind : Literal behind)
    (h : templateSegments (rawTemplate before source behind) =
      (Segment.ofText before ++ .expr value :: Segment.ofText behind, 0)) :
    Embedding.passes source = true := by
  rw [rawTemplate, templateSegments_literal hbefore, Prod.mk.injEq] at h
  obtain ⟨hsegments, hunread⟩ := h
  have hexprs := congrArg (List.filterMap (·.expr?)) hsegments
  have hlength := congrArg Segment.textLength hsegments
  rw [exprs_consChars, List.filterMap_append, Segment.exprs_ofText, List.nil_append] at hexprs
  rw [Segment.textLength_consChars, Segment.textLength_append, Segment.textLength_ofText,
    Nat.add_left_cancel_iff, Segment.textLength, Segment.textLength_ofText] at hlength
  cases hclose : Embedding.close 0 none (source ++ '}' :: behind) with
  | none =>
      rw [templateSegments_unclosed hclose, exprs_consChars] at hexprs
      cases hexprs
  | some found =>
      obtain ⟨inner, rest⟩ := found
      cases hread : readEmbedded? inner with
      | none =>
          rw [unread_of_readEmbedded? hclose hread] at hunread
          cases hunread
      | some found =>
          rw [templateSegments_closed hclose hread] at hexprs hunread hlength
          have hnone : (templateSegments rest).1.filterMap (·.expr?) = [] :=
            (List.cons.inj hexprs).2.trans (Segment.exprs_ofText behind)
          rw [Segment.textLength] at hlength
          obtain ⟨hsplit, hscan⟩ := Embedding.close_eq_some_iff.mp hclose
          rcases List.append_eq_append_iff.mp hsplit with ⟨more, rfl, hmore⟩ | ⟨more, rfl, hmore⟩
          · cases more with
            | nil => simpa [Embedding.passes] using hscan
            | cons c more =>
                -- The brace is found too late, and too little text is left behind it.
                rw [List.cons_append, List.cons.injEq] at hmore
                obtain ⟨rfl, rfl⟩ := hmore
                have hrest : Literal rest := fun c hc => hbehind c (by simp [hc])
                rw [templateSegments_ofText hrest, Segment.textLength_ofText] at hlength
                simp only [List.length_append, List.length_cons] at hlength
                omega
          · cases more with
            | nil => simpa [Embedding.passes] using hscan
            | cons c more =>
                -- It is found too early, and too much text is left.
                rw [List.cons_append, List.cons.injEq] at hmore
                obtain ⟨rfl, rfl⟩ := hmore
                have hmuch := length_lt_textLength hbehind hnone hunread
                omega

end Splitting

section Reading

open Diglot.Parser

variable {source : List Char} {tokens : List Token} {found : Expr} {text : String}

theorem lex_ending {cursor : Cursor} (h : lex cursor = .ok tokens) :
    ∃ before pos, tokens = before ++ [⟨.eof, "", pos⟩] ∧ ∀ token ∈ before, token.kind ≠ .eof := by
  fun_induction lex cursor generalizing tokens with
  | case1 cursor hrest =>
      cases h
      exact ⟨[], cursor.pos, rfl, by simp⟩
  | case2 => cases h
  | case3 cursor c rest hrest piece hpiece shorter ih =>
      obtain ⟨behind, hlex, hbehind⟩ := exists_of_bind_eq_ok h
      cases hbehind
      obtain ⟨before, pos, rfl, hkinds⟩ := ih hlex
      refine ⟨piece.tokens cursor.pos ++ before, pos, by simp, ?_⟩
      refine List.forall_mem_append.mpr ⟨fun token htoken heof => ?_, hkinds⟩
      obtain ⟨after, -, hsaid⟩ : lexicon.Cuts 0 (c :: rest) piece := piece_cuts hpiece
      have htext := hsaid cursor.pos
      rw [← Part.token_ofPiece, Option.mem_toList] at htoken
      rw [Lexicon.Says, htoken] at htext
      simp only [Lexicon.Spells, heof] at htext
      exact piece_ne_nil hpiece htext

theorem exists_of_parseWhole (h : parseWhole .javaScript text = .ok (found, true)) :
    ∃ tokens rest, tokenize text = .ok tokens ∧
      expression (TokenStream.plain tokens).size (.plain tokens) = .ok (found, rest) ∧
      rest.isAtEnd = true := by
  obtain ⟨tokens, htokens, h⟩ := exists_of_bind_eq_ok h
  obtain ⟨⟨value, rest⟩, hread, h⟩ := exists_of_bind_eq_ok h
  obtain ⟨rfl, hend⟩ := Prod.mk.inj (Except.ok.inj h)
  exact ⟨tokens, rest, htokens, hread, hend⟩

-- A text that is read as one expression is read so inside a template, with or without blanks around
-- it.
theorem exists_readEmbedded? (htick : '`' ∉ source)
    (h : parseWhole .javaScript (String.ofList source) = .ok (found, true)) :
    ∃ value, readEmbedded? source = some value ∧ placeless value = placeless found ∧
      value.Untemplated := by
  obtain ⟨tokens, rest, htokens, hread, hend⟩ := exists_of_parseWhole h
  obtain ⟨others, hothers, hsame⟩ := tokenize_trimBlanks htokens
  obtain ⟨before, pos, hbefore, -⟩ := lex_ending htokens
  have hform : placeless tokens = placeless (before ++ [.ending]) := by
    rw [hbefore, placeless_append, placeless_append]
    rfl
  have hstream : placeless (TokenStream.plain others) = placeless (TokenStream.plain tokens) :=
    (placeless_ofTokens (hsame.trans hform) none).trans (placeless_ofTokens hform none).symm
  obtain ⟨value, behind, hvalue, hplaces, hbehind⟩ := (expression_blind _).run hstream hread
  rw [← size_eq_of_placeless hstream] at hvalue
  have hne : trimBlanks source ≠ [] := by
    intro hnil
    rw [hnil] at hothers
    have hempty : tokenize (String.ofList []) = .ok [⟨.eof, "", .start⟩] := by
      unfold tokenize lex
      rfl
    rw [hempty] at hothers
    cases hothers
    cases hvalue
  have hembedded : readEmbedded? source = some value := by
    simp [readEmbedded?, hne, hothers, hvalue, isAtEnd_eq_of_placeless hbehind, hend]
  have hraw : Quoted.template source = none := by
    cases hraw : Quoted.template source with
    | none => rfl
    | some raw => exact absurd ((Quoted.isPrefix_template hraw).subset (by simp)) htick
  exact ⟨value, hembedded, hplaces, untemplated_of_readEmbedded? hraw hembedded⟩

end Reading

end Braced

-- Whether the search for a brace takes a part for what it is: the quote of a string stands at its
-- two ends only, and no other part but an operator has quotes or braces in it. All names and numbers
-- are tame; comments need not be.
def Part.isTame (part : Part) : Bool :=
  match part.token.map Token.kind with
  | some .string => part.text.head?.any fun quote => part.text.count quote == 2
  | some .operator => true
  | _ => Embedding.isUnmarked part.text

namespace Braced

section Tame

variable {part : Part} {parts : List Part} {depth : Nat} {rest source : List Char}
  {tokens : List Token} {found : Expr}

theorem scan_operator {lexeme : String} (h : lexeme ∈ operators) (pos : Pos) (count : Nat) :
    Embedding.scan (count, none) lexeme.toList =
      (braced count ⟨.operator, lexeme, pos⟩).map (·, none) := by
  have hunmarked : (operators.all fun lexeme => lexeme == "\x7b" || lexeme == "\x7d" ||
      isUnbraced lexeme && Embedding.isUnmarked lexeme.toList) = true := by decide
  have hlexeme := List.all_eq_true.mp hunmarked lexeme h
  simp only [Bool.or_eq_true, Bool.and_eq_true, beq_iff_eq, or_assoc] at hlexeme
  rcases hlexeme with rfl | rfl | ⟨hbrace, hmarks⟩
  · rfl
  · cases count <;> rfl
  · have hoperator : Token.isOperator ⟨.operator, lexeme, pos⟩ lexeme = true := by
      simp [Token.isOperator, Token.is]
    rw [Embedding.scan_unmarked hmarks,
      braced_of_not_isBrace (isBrace_of_isOperator hbrace hoperator)]
    rfl

-- The search counts the braces that the tokens are.
theorem scan_part (hsaid : lexicon.Says depth part rest) (h : part.isTame = true) (count : Nat) :
    Embedding.scan (count, none) part.text =
      (part.token.toList.foldlM braced count).map (·, none) := by
  obtain ⟨text, token⟩ := part
  cases token with
  | none => exact Embedding.scan_unmarked h count
  | some token =>
      obtain ⟨kind, lexeme, pos⟩ := token
      by_cases hkind : kind = .operator
      · subst hkind
        obtain ⟨rfl, hmem, -⟩ := hsaid
        simpa using scan_operator hmem pos count
      have hbraced : ([⟨kind, lexeme, pos⟩] : List Token).foldlM braced count = some count := by
        have hnot : isBrace ⟨kind, lexeme, pos⟩ = false := isBrace_of_kind hkind
        simp [braced_of_not_isBrace hnot]
      rw [Option.toList_some, hbraced]
      by_cases hstring : kind = .string
      · subst hstring
        obtain ⟨quote, body, hquote, rfl, hbody⟩ := hsaid
        obtain ⟨inner, rfl⟩ := Quoted.exists_concat_of_body hbody
        refine Embedding.scan_quoted hquote (fun hmem => ?_) count
        have hcount := List.count_pos_iff.mpr hmem
        simp [Part.isTame] at h
        omega
      · refine Embedding.scan_unmarked ?_ count
        cases kind <;> first | exact h | contradiction

theorem scan_parts
    (h : ∀ part ∈ parts, part.isTame = true ∧ ∃ depth rest, lexicon.Says depth part rest)
    (count : Nat) :
    Embedding.scan (count, none) (Part.textOf parts) =
      ((Part.tokensOf parts).foldlM braced count).map (·, none) := by
  induction parts generalizing count with
  | nil => rfl
  | cons part parts ih =>
      obtain ⟨⟨htame, depth, rest, hsaid⟩, hparts⟩ := List.forall_mem_cons.mp h
      rw [Part.textOf_cons, Part.tokensOf_cons, Embedding.scan_append, scan_part hsaid htame,
        List.foldlM_append]
      cases part.token.toList.foldlM braced count with
      | none => rfl
      | some next => exact ih hparts next

-- The tokens of a whole expression close the braces that they open.
theorem foldlM_braced_of_parseWhole (htokens : tokenize (String.ofList source) = .ok tokens)
    (h : parseWhole .javaScript (String.ofList source) = .ok (found, true)) :
    tokens.foldlM braced 0 = some 0 := by
  obtain ⟨others, rest, hothers, hread, hend⟩ := exists_of_parseWhole h
  rw [htokens] at hothers
  cases hothers
  obtain ⟨before, pos, rfl, hkinds⟩ := lex_ending htokens
  obtain ⟨-, passed, hpassed, hnested⟩ :=
    expression_encloses _ _ (TokenStream.ended_ofTokens _ none) hread
  have heof : (⟨.eof, "", pos⟩ : Token).kind = .eof := rfl
  rw [(TokenStream.ofTokens_append_eof before none heof).1] at hpassed
  obtain rfl : before = passed := by
    rcases List.eq_nil_or_concat rest.upcoming with hnil | ⟨more, last, hmore⟩
    · rw [TokenStream.tokens, hnil] at hpassed
      exact List.append_inj_left' hpassed rfl
    · -- A token that ends the stream would stand in front of the last one.
      have hfront : before = passed ++ rest.current :: more := by
        rw [TokenStream.tokens, hmore, List.concat_eq_append, ← List.cons_append,
          ← List.append_assoc] at hpassed
        exact List.append_inj_left' hpassed rfl
      exact absurd (eq_of_beq hend) (hkinds rest.current (by simp [hfront]))
  rw [List.foldlM_append, hnested.foldlM_braced]
  rfl

theorem passes_of_tame (htokens : tokenize (String.ofList source) = .ok tokens)
    (h : parseWhole .javaScript (String.ofList source) = .ok (found, true))
    (hparts : Partition .javaScript (String.ofList source) tokens parts)
    (htame : ∀ part ∈ parts, part.isTame = true) : Embedding.passes source = true := by
  have hsaid : ∀ part ∈ parts, part.isTame = true ∧ ∃ depth rest, lexicon.Says depth part rest := by
    intro part hpart
    obtain ⟨front, back, hsplit⟩ := List.append_of_mem hpart
    exact ⟨htame part hpart, _, _, hparts.said front part back hsplit⟩
  have hscan := scan_parts hsaid 0
  rw [hparts.text, hparts.tokens, String.toList_ofList,
    foldlM_braced_of_parseWhole htokens h] at hscan
  simp [Embedding.passes, hscan]

end Tame

end Braced

namespace Indented

section Writing

variable {before source behind : List Char} {found : Expr}

-- A template with an expression between two texts is split into the three and written from them. No
-- part of it is a placeholder.
structure Interpolates (before source behind : List Char) (found : Expr) : Prop where
  segments : ∃ value, Braced.templateSegments (Braced.rawTemplate before source behind) =
    (Segment.ofText before ++ .expr value :: Segment.ofText behind, 0) ∧
      placeless value = placeless found
  text : writeTemplate (String.ofList (Braced.rawTemplate before source behind)) =
    templateText (Segment.ofText before ++ .expr (writeExpr found) :: Segment.ofText behind)
  count : ∀ pos,
    countExpr (.template (String.ofList (Braced.rawTemplate before source behind)) pos) = 0

theorem writeSegmentsWith_ofText (template : String → String) (value : Expr) :
    writeSegmentsWith template (Segment.ofText before ++ .expr value :: Segment.ofText behind) =
      Segment.ofText before ++ .expr (writeExprWith template value) :: Segment.ofText behind := by
  cases before <;> cases behind <;> rfl

theorem countSegmentsWith_ofText (template : String → Nat) (value : Expr) :
    countSegmentsWith template (Segment.ofText before ++ .expr value :: Segment.ofText behind) =
      countExprWith template value := by
  cases before <;> cases behind <;> rfl

theorem interpolates_of_passes (hbefore : Braced.Literal before) (hbehind : Braced.Literal behind)
    (htick : '`' ∉ source) (h : parseWhole .javaScript (String.ofList source) = .ok (found, true))
    (hpasses : Embedding.passes source = true) : Interpolates before source behind found := by
  obtain ⟨value, hread, hplaces, hvalue⟩ := Braced.exists_readEmbedded? htick h
  have hsegments := Braced.templateSegments_embedded hbefore hbehind hpasses hread
  obtain ⟨limit, hlimit⟩ : ∃ limit,
      (String.ofList (Braced.rawTemplate before source behind)).length = limit + 1 := by
    refine ⟨_, (Nat.succ_pred_eq_of_pos ?_).symm⟩
    simp only [String.length_ofList, Braced.rawTemplate, List.length_append, List.length_cons]
    omega
  refine ⟨⟨value, hsegments, hplaces⟩, ?_, fun pos => ?_⟩
  · have hagree := writeExprWith_untemplated (writeTemplateWithin limit) writeTemplate hvalue
    have hsame : writeExpr value = writeExpr found := by
      rw [← writeExpr_placeless value, ← writeExpr_placeless found]
      exact congrArg writeExpr hplaces
    rw [writeTemplate, hlimit, writeTemplateWithin, String.toList_ofList, hsegments,
      writeSegmentsWith_ofText, hagree, ← writeExpr, hsame]
  · rw [countExpr, countExprWith, hlimit, countTemplateWithin, String.toList_ofList, hsegments]
    simp only [countSegmentsWith_ofText, countExprWith_untemplated hvalue]

-- An expression without backticks is written where it stands in a template, between the texts around
-- it, if and only if the search for its closing brace goes over it. It does so if all its parts are
-- tame.
theorem interpolates_iff_passes (hbefore : Braced.Literal before) (hbehind : Braced.Literal behind)
    (htick : '`' ∉ source)
    (h : parseWhole .javaScript (String.ofList source) = .ok (found, true)) :
    (Interpolates before source behind found ↔ Embedding.passes source = true) ∧
      ∀ tokens parts, Diglot.tokenize .javaScript (String.ofList source) = .ok tokens →
        Partition .javaScript (String.ofList source) tokens parts →
        (∀ part ∈ parts, part.isTame = true) → Interpolates before source behind found := by
  have hinterpolates := interpolates_of_passes hbefore hbehind htick h
  refine ⟨⟨fun hwritten => ?_, hinterpolates⟩, fun tokens parts htokens hparts htame => ?_⟩
  · obtain ⟨value, hsegments, -⟩ := hwritten.segments
    exact Braced.passes_of_templateSegments hbefore hbehind hsegments
  · exact hinterpolates (Braced.passes_of_tame htokens h hparts htame)

theorem exists_whole {source : String}
    (h : (parseWhole .javaScript source).toOption.map (·.2) = some true) :
    ∃ found, parseWhole .javaScript source = .ok (found, true) := by
  cases hwhole : parseWhole .javaScript source with
  | error failure =>
      rw [hwhole] at h
      cases h
  | ok whole =>
      rw [hwhole] at h
      obtain ⟨found, atEnd⟩ := whole
      cases h
      exact ⟨found, rfl⟩

-- Braces around a string that has a brace and another quote in it.
def enclosedBrace : List Char := "\x7bk: \"\x7d'\"\x7d".toList

theorem exists_tame_enclosedBrace :
    ∃ parts, Braced.lex (.ofText enclosedBrace) = .ok (Part.tokensOf parts) ∧
      Part.Covers Braced.lexicon (.ofText enclosedBrace) 0 parts ∧
      ∀ part ∈ parts, part.isTame = true := by
  have hopening : Braced.piece '{' "k: \"\x7d'\"\x7d".toList =
    .ok ⟨['{'], some (.operator, "\x7b")⟩ := rfl
  have hkey : Braced.piece 'k' ": \"\x7d'\"\x7d".toList = .ok ⟨['k'], some (.identifier, "k")⟩ := rfl
  have hcolon : Braced.piece ':' " \"\x7d'\"\x7d".toList = .ok ⟨[':'], some (.operator, ":")⟩ := rfl
  have hblank : Braced.piece ' ' "\"\x7d'\"\x7d".toList = .ok ⟨[' '], none⟩ := rfl
  have hstring : Braced.piece '"' "\x7d'\"\x7d".toList =
    .ok ⟨"\"\x7d'\"".toList, some (.string, "\x7d'")⟩ := rfl
  have hclosing : Braced.piece '}' [] = .ok ⟨['}'], some (.operator, "\x7d")⟩ := rfl
  have hend : Braced.lex ⟨⟨1, 10⟩, []⟩ = .ok [⟨.eof, "", ⟨1, 10⟩⟩] := by
    unfold Braced.lex
    rfl
  refine ⟨_, ?_, .piece (Braced.piece_cuts hopening) <| .piece (Braced.piece_cuts hkey) <|
    .piece (Braced.piece_cuts hcolon) <| .piece (Braced.piece_cuts hblank) <|
    .piece (Braced.piece_cuts hstring) <| .piece (Braced.piece_cuts hclosing) <|
    Part.covers_eof rfl, by decide⟩
  exact Braced.lex_of_piece rfl hopening <| Braced.lex_of_piece rfl hkey <|
    Braced.lex_of_piece rfl hcolon <| Braced.lex_of_piece rfl hblank <|
    Braced.lex_of_piece rfl hstring <| Braced.lex_of_piece rfl hclosing hend

theorem interpolates_iff_passes_enclosedBrace :
    ∃ found tokens parts,
      (Braced.Literal "a \x7d".toList ∧ Braced.Literal [] ∧ '`' ∉ enclosedBrace ∧
        parseWhole .javaScript (String.ofList enclosedBrace) = .ok (found, true)) ∧
      (Diglot.tokenize .javaScript (String.ofList enclosedBrace) = .ok tokens ∧
        Partition .javaScript (String.ofList enclosedBrace) tokens parts ∧
        ∀ part ∈ parts, part.isTame = true) ∧
      Embedding.passes enclosedBrace = true ∧
      Interpolates "a \x7d".toList enclosedBrace [] found := by
  obtain ⟨found, hwhole⟩ :
      ∃ found, parseWhole .javaScript (String.ofList enclosedBrace) = .ok (found, true) :=
    exists_whole (by decide +kernel)
  obtain ⟨parts, hlex, hcovers, htame⟩ := exists_tame_enclosedBrace
  have hbefore : Braced.Literal "a \x7d".toList := by simp [Braced.Literal]
  have hbehind : Braced.Literal [] := by simp [Braced.Literal]
  have htick : '`' ∉ enclosedBrace := by decide
  have hparts : Partition .javaScript (String.ofList enclosedBrace) (Part.tokensOf parts) parts :=
    partition_of_covers (String.toList_ofList ▸ hcovers)
  have htokens : Diglot.tokenize .javaScript (String.ofList enclosedBrace) =
      .ok (Part.tokensOf parts) := by
    simpa [Diglot.tokenize, Braced.tokenize] using hlex
  obtain ⟨hiff, hinterpolates⟩ := interpolates_iff_passes hbefore hbehind htick hwhole
  have hwritten := hinterpolates _ parts htokens hparts htame
  exact ⟨found, _, parts, ⟨hbefore, hbehind, htick, hwhole⟩, ⟨htokens, hparts, htame⟩,
    hiff.mp hwritten, hwritten⟩

-- The search takes an escaped quote for the end of a string. No brace closes the expression then, and
-- all of it becomes text.
theorem transpile_escapedQuote :
    (transpile .default .javaScript "x = `a$\x7bf(\"\\\"\")\x7db`;").toOption =
        some "x = \"a$\x7bf(\\\"\\\\\\\"\\\")\x7db\"\n" ∧
      (∃ found, parseWhole .javaScript "f(\"\\\"\")" = .ok (found, true)) ∧
      ∀ found, ¬ Interpolates ['a'] "f(\"\\\"\")".toList ['b'] found := by
  refine ⟨by decide +kernel, exists_whole (by decide +kernel), fun found hwritten => ?_⟩
  · obtain ⟨value, hsegments, -⟩ := hwritten.segments
    have hpasses := Braced.passes_of_templateSegments (by simp [Braced.Literal])
      (by simp [Braced.Literal]) hsegments
    revert hpasses
    decide

end Writing

end Indented

end Diglot
