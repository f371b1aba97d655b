import Diglot.Proofs.Embedding
import Diglot.Proofs.Numerals
import Diglot.Proofs.Termination

namespace Diglot

variable {p : Char → Bool} {text : List Char}

-- Whether a text is not empty, and has no blanks, quotes, braces or backslashes in it.
def isUnbroken (text : String) : Bool := !text.toList.isEmpty && text.toList.all isInert

theorem isUnbroken_iff {text : String} :
    isUnbroken text = true ↔ text.toList ≠ [] ∧ ∀ c ∈ text.toList, isInert c = true := by
  simp [isUnbroken]

theorem inert_takeWhile (hp : ∀ c, p c = true → isWordChar c = true) (text : List Char) :
    ∀ c ∈ text.takeWhile p, isInert c = true := by
  intro c hc
  have hword := hp c (List.all_eq_true.mp List.all_takeWhile c hc)
  exact isInert_of_isWordPart (by simp [Braced.isWordPart, hword])

namespace Number

variable {literal : List Char}

theorem inert_digits (text : List Char) : ∀ c ∈ text.takeWhile isDigit, isInert c = true :=
  inert_takeWhile (fun c hc => by simp [isWordChar, hc]) text

theorem inert_fraction (text : List Char) : ∀ c ∈ fraction text, isInert c = true := by
  unfold fraction
  split
  · rename_i rest
    dsimp only
    split
    · simp
    · exact List.forall_mem_cons.mpr ⟨by decide, inert_digits rest⟩
  · simp

theorem inert_sign (text : List Char) : ∀ c ∈ sign text, isInert c = true := by
  unfold sign
  split <;> simp [isInert, isBlank]

theorem inert_exponent (text : List Char) : ∀ c ∈ exponent text, isInert c = true := by
  unfold exponent
  split
  · rename_i mark rest
    split
    · rename_i hmark
      dsimp only
      split
      · simp
      · have hmark : isInert mark = true := by
          simp only [Bool.or_eq_true, beq_iff_eq] at hmark
          rcases hmark with rfl | rfl <;> decide
        rw [List.forall_mem_append, List.forall_mem_cons]
        exact ⟨⟨hmark, inert_sign rest⟩, inert_digits _⟩
    · simp
  · simp

theorem inert_hexadecimal (h : hexadecimal? text = some literal) :
    ∀ c ∈ literal, isInert c = true := by
  unfold hexadecimal? at h
  split at h
  · rename_i mark rest
    dsimp only at h
    split at h
    · rename_i hmark
      cases h
      have hmark : isInert mark = true := by
        simp only [Bool.and_eq_true, Bool.or_eq_true, beq_iff_eq] at hmark
        rcases hmark.1 with rfl | rfl <;> decide
      refine List.forall_mem_cons.mpr ⟨by decide, List.forall_mem_cons.mpr ⟨hmark, ?_⟩⟩
      exact inert_takeWhile isWordChar_of_isHexDigit rest
    · cases h
  · cases h

theorem inert_read (h : read text = .ok literal) : ∀ c ∈ literal, isInert c = true := by
  unfold read at h
  split at h
  · rename_i found hfound
    rw [finish_eq_ok h]
    exact inert_hexadecimal hfound
  · dsimp only at h
    split at h
    · cases h
    · rw [finish_eq_ok h, List.forall_mem_append, List.forall_mem_append]
      exact ⟨⟨inert_digits _, inert_fraction _⟩, inert_exponent _⟩

theorem isUnbroken_of_isLiteral {literal : String} (h : isLiteral literal.toList = true) :
    isUnbroken literal = true := by
  refine isUnbroken_iff.mpr ⟨?_, inert_read (read_of_isLiteral h)⟩
  intro hnil
  simp [isLiteral, hnil] at h

theorem isLiteral_of_read (hdigit : text.head?.any isDigit = true) (h : read text = .ok literal) :
    isLiteral literal = true := by
  obtain ⟨hhead, hread⟩ := read_alone hdigit h
  simp [isLiteral, hhead, hread]

end Number

namespace Quoted

variable {front rest raw : List Char}

theorem exists_concat_of_body {quote : Char} {value piece : List Char}
    (h : body quote text = some (value, piece)) : ∃ inner, piece = inner ++ [quote] := by
  fun_induction body quote text generalizing value piece with
  | case1 | case3 | case4 | case5 | case7 => cases h
  | case2 rest =>
      cases h
      exact ⟨[], rfl⟩
  | case6 escaped rest value found hbody hquote hfeed ih =>
      cases h
      obtain ⟨inner, rfl⟩ := ih hbody
      exact ⟨'\\' :: escaped :: inner, rfl⟩
  | case8 c rest hquote hfeed hslash value found hbody ih =>
      cases h
      obtain ⟨inner, rfl⟩ := ih hbody
      exact ⟨c :: inner, rfl⟩

-- A text without a backtick that would close it.

theorem template_append (h : template front = some raw) (rest : List Char) :
    template (front ++ rest) = some raw := by
  fun_induction template front generalizing raw with
  | case1 | case3 => cases h
  | case2 front =>
      cases h
      exact template_close (front ++ rest)
  | case4 escaped front hquote ih =>
      obtain ⟨inner, hinner, rfl⟩ := Option.map_eq_some_iff.mp h
      simp [template, ih hinner]
  | case5 c front hquote hslash ih =>
      obtain ⟨inner, hinner, rfl⟩ := Option.map_eq_some_iff.mp h
      simp [template_cons hquote hslash, ih hinner]

theorem template_of_append (h : template (front ++ rest) = none) : template front = none := by
  cases hfront : template front with
  | none => rfl
  | some raw =>
      rw [template_append hfront] at h
      cases h

-- Behind a character that is no backslash the reading is where it would be at the start.
theorem template_behind (front : List Char) {c : Char} (hc : c ≠ '\\')
    (h : template (front ++ c :: rest) = none) : template rest = none := by
  fun_induction template front with
  | case1 =>
      by_cases hquote : c = '`'
      · rw [hquote, List.nil_append, template_close] at h
        cases h
      · simpa [template_cons hquote hc] using h
  | case2 front =>
      rw [List.cons_append, template_close] at h
      cases h
  | case3 hquote => simpa [template] using h
  | case4 escaped front hquote ih => exact ih (by simpa [template] using h)
  | case5 d front hquote hslash ih => exact ih (by simpa [template_cons hquote hslash] using h)

theorem template_of_plain (hfront : '\\' ∉ front) (h : template (front ++ rest) = none) :
    template rest = none := by
  rcases List.eq_nil_or_concat front with rfl | ⟨front, c, rfl⟩
  · exact h
  · have hc : c ≠ '\\' := by
      rintro rfl
      simp at hfront
    exact template_behind front hc (by simpa using h)

-- What is read between backticks is such a text.
theorem template_of_template (h : template text = some raw) : template raw = none := by
  fun_induction template text generalizing raw with
  | case1 | case3 => cases h
  | case2 rest =>
      cases h
      rfl
  | case4 escaped rest hquote ih =>
      obtain ⟨inner, hinner, rfl⟩ := Option.map_eq_some_iff.mp h
      simp [template, ih hinner]
  | case5 c rest hquote hslash ih =>
      obtain ⟨inner, hinner, rfl⟩ := Option.map_eq_some_iff.mp h
      simp [template_cons hquote hslash, ih hinner]

end Quoted

namespace Braced

variable {tokens : List Token} {source : String}

-- Whether a name, a number or a template is one that the lexer finds.
def isProper : TokenKind × String → Bool
  | (.identifier, name) | (.keyword, name) => isUnbroken name
  | (.number, literal) => Number.isLiteral literal.toList
  | (.template, raw) => (Quoted.template raw.toList).isNone
  | _ => true

theorem proper_of_piece {c : Char} {rest : List Char} {found : Piece}
    (h : piece c rest = .ok found) (pos : Pos) :
    ∀ token ∈ found.tokens pos, isProper (token.kind, token.lexeme) = true := by
  have hsaid : ∀ {text : List Char} {kind : TokenKind} {lexeme : String},
      isProper (kind, lexeme) = true → ∀ token ∈ Piece.tokens ⟨text, some (kind, lexeme)⟩ pos,
        isProper (token.kind, token.lexeme) = true := by
    intro text kind lexeme hproper token htoken
    rw [List.mem_singleton.mp htoken]
    exact hproper
  have htext := piece_ne_nil h
  unfold piece at h
  split at h
  · cases h
    simp [Piece.trivia, Piece.tokens]
  split at h
  · cases h
    simp [Piece.trivia, Piece.tokens]
  split at h
  · split at h <;> cases h
    simp [Piece.trivia, Piece.tokens]
  split at h
  · unfold Piece.quoted at h
    split at h <;> cases h
    exact hsaid rfl
  split at h
  · split at h
    · cases h
    · rename_i raw hraw
      cases h
      exact hsaid (by simp [isProper, Quoted.template_of_template hraw])
  split at h
  · rename_i hdigit
    unfold Piece.number at h
    split at h
    · cases h
    · rename_i literal hread
      cases h
      exact hsaid (by simpa [isProper] using Number.isLiteral_of_read (by simpa using hdigit) hread)
  split at h
  · cases h
    have hunbroken : isUnbroken (String.ofList ((c :: rest).takeWhile isWordPart)) = true := by
      rw [isUnbroken_iff, String.toList_ofList]
      refine ⟨htext, fun d hd => ?_⟩
      exact isInert_of_isWordPart (List.all_eq_true.mp List.all_takeWhile d hd)
    refine hsaid ?_
    split <;> exact hunbroken
  · unfold Piece.operator at h
    split at h <;> cases h
    exact hsaid rfl

theorem proper_of_lex {cursor : Cursor} (h : lex cursor = .ok tokens) :
    ∀ token ∈ tokens, isProper (token.kind, token.lexeme) = true := by
  intro token hmem
  rcases exists_piece_of_mem h hmem with heof | ⟨c, rest, found, pos, hpiece, hfound⟩
  · rw [heof]
    rfl
  · exact proper_of_piece hpiece pos token hfound

section Words

variable (h : tokenize source = .ok tokens)

include h

theorem unbroken_of_isWord {text : String}
    (hword : (setting (TokenStream.plain tokens).tokens).IsWord text) : isUnbroken text = true := by
  obtain ⟨token, htoken, hkind, rfl⟩ := hword
  rcases TokenStream.mem_tokens_ofTokens htoken with hmem | heof
  · have hproper := proper_of_lex h token hmem
    rcases mem_pair.mp hkind with hkind | hkind <;> rwa [hkind] at hproper
  · exact absurd hkind (by simp [heof])

theorem proper_of_isLiteral {said : TokenKind × String}
    (hsaid : (setting (TokenStream.plain tokens).tokens).IsLiteral said) : isProper said = true := by
  rcases hsaid with rfl | ⟨token, htoken, rfl⟩
  · decide
  · rcases TokenStream.mem_tokens_ofTokens htoken with hmem | heof
    · exact proper_of_lex h token hmem
    · rw [heof]
      rfl

theorem worded_of_tokens {e : Expr}
    (he : (setting (TokenStream.plain tokens).tokens).IsExpr e) : e.Worded isUnbroken isProper :=
  worded_of_isExpr (fun _ => unbroken_of_isWord h) (fun _ => proper_of_isLiteral h) he

end Words

section Templates

variable {text raw : List Char} {e : Expr}

theorem template_of_says {depth : Nat} {part : Part} {rest : List Char}
    (hsaid : lexicon.Says depth part rest)
    (hproper : ∀ token ∈ part.token, isProper (token.kind, token.lexeme) = true)
    (h : Quoted.template (part.text ++ rest) = none) :
    Quoted.template rest = none ∧ ∀ token ∈ part.token, token.kind ≠ .template := by
  obtain ⟨text, token⟩ := part
  cases token with
  | none =>
      refine ⟨?_, by simp⟩
      rcases hsaid with ⟨c, hblank, rfl⟩ | ⟨body, rfl, -, hend⟩ | ⟨body, rfl, -⟩
      · refine Quoted.template_behind [] ?_ h
        rintro rfl
        cases hblank
      · -- The line feed behind a comment may be escaped there, but closes nothing.
        cases rest with
        | nil => rfl
        | cons d rest =>
            obtain rfl : d = '\n' := by simpa using hend
            rw [Quoted.template_cons (by decide) (by decide),
              Quoted.template_behind _ (by decide) h]
            rfl
      · exact Quoted.template_behind ('/' :: '*' :: body ++ ['*']) (c := '/') (by decide)
          (by simpa using h)
  | some token =>
      obtain ⟨kind, lexeme, pos⟩ := token
      have hunbroken : isUnbroken lexeme = true → '\\' ∉ lexeme.toList := by
        intro hlexeme hmem
        have hinert := (isUnbroken_iff.mp hlexeme).2 _ hmem
        simp [isInert] at hinert
      have hquotes : ∀ {opening}, Lexicon.Quotes opening lexeme text rest →
          Quoted.template rest = none := by
        rintro opening ⟨quote, body, hquote, rfl, hbody⟩
        obtain ⟨inner, rfl⟩ := Quoted.exists_concat_of_body hbody
        refine Quoted.template_behind (opening ++ quote :: inner) (c := quote) ?_
          (by simpa using h)
        rintro rfl
        simp at hquote
      have hlexeme : isProper (kind, lexeme) = true := hproper _ rfl
      cases kind with
      | template =>
          obtain rfl : text = _ := hsaid
          rw [List.cons_append, List.cons_append, Quoted.template_close] at h
          cases h
      | operator =>
          obtain ⟨rfl, hmem, -⟩ := hsaid
          have hplain : ∀ lexeme ∈ operators, '\\' ∉ lexeme.toList := by decide
          exact ⟨Quoted.template_of_plain (hplain lexeme hmem) h, by simp⟩
      | string | interpolated => exact ⟨hquotes hsaid, by simp⟩
      | identifier | keyword =>
          obtain ⟨rfl, -⟩ := hsaid
          exact ⟨Quoted.template_of_plain (hunbroken hlexeme) h, by simp⟩
      | number =>
          obtain rfl : text = _ := hsaid
          have hnumber := hunbroken (Number.isUnbroken_of_isLiteral hlexeme)
          exact ⟨Quoted.template_of_plain hnumber h, by simp⟩
      | newline =>
          obtain ⟨rfl, hfeed, -⟩ := hsaid
          have hplain : '\\' ∉ lexeme.toList := by
            rw [show lexeme = "\n" from hfeed]
            decide
          exact ⟨Quoted.template_of_plain hplain h, by simp⟩
      | indent | dedent | eof =>
          obtain rfl : text = [] := hsaid
          exact ⟨h, by simp⟩

-- A text without such a backtick has no template in it.
theorem kind_ne_template {cursor : Cursor} (h : lex cursor = .ok tokens)
    (hraw : Quoted.template cursor.rest = none) : ∀ token ∈ tokens, token.kind ≠ .template := by
  fun_induction lex cursor generalizing tokens with
  | case1 cursor hrest =>
      cases h
      simp
  | case2 => cases h
  | case3 cursor c rest hrest found hpiece shorter ih =>
      obtain ⟨behind, hlex, hbehind⟩ := exists_of_bind_eq_ok h
      cases hbehind
      obtain ⟨after, hsplit, hsaid⟩ : lexicon.Cuts 0 (c :: rest) found := piece_cuts hpiece
      have hproper := proper_of_piece hpiece cursor.pos
      simp only [← Part.token_ofPiece, Option.mem_toList] at hproper
      rw [hrest, hsplit] at hraw
      obtain ⟨hafter, hkind⟩ := template_of_says (hsaid cursor.pos) hproper hraw
      refine List.forall_mem_append.mpr ⟨?_, ih hlex ?_⟩
      · rw [← Part.token_ofPiece]
        exact fun token htoken => hkind token (Option.mem_toList.mp htoken)
      · simpa [Cursor.skip, hrest, hsplit] using hafter

theorem isExpr_of_readEmbedded? (h : readEmbedded? text = some e) :
    ∃ tokens, tokenize (String.ofList (trimBlanks text)) = .ok tokens ∧
      (setting (TokenStream.plain tokens).tokens).IsExpr e := by
  unfold readEmbedded? at h
  dsimp only at h
  split at h
  · cases h
  split at h
  · cases h
  rename_i tokens htokens
  split at h
  · cases h
  rename_i found stream hfound
  split at h
  · cases h
    have hholds : (setting (TokenStream.plain tokens).tokens).Holds (.plain tokens) :=
      ⟨TokenStream.ended_ofTokens tokens _, List.suffix_refl _⟩
    have hmeets := expression_agree (Nat.le_refl _) (Nat.le_refl _) _ hholds (Nat.le_refl _)
    exact ⟨tokens, htokens, (hmeets.ok hfound).2.2⟩
  · cases h

theorem template_trimBlanks (h : Quoted.template text = none) :
    Quoted.template (trimBlanks text) = none := by
  have hdrop : Quoted.template (text.dropWhile isBlank) = none := by
    rw [← List.takeWhile_append_dropWhile (p := isBlank) (l := text)] at h
    refine Quoted.template_of_plain (fun hmem => ?_) h
    cases List.all_eq_true.mp List.all_takeWhile _ hmem
  obtain ⟨blanks, hblanks⟩ := List.dropWhile_suffix isBlank (l := (text.dropWhile isBlank).reverse)
  rw [← List.reverse_reverse (text.dropWhile isBlank), ← hblanks, List.reverse_append] at hdrop
  exact Quoted.template_of_append hdrop

theorem untemplated_of_readEmbedded? (hraw : Quoted.template text = none)
    (h : readEmbedded? text = some e) : e.Untemplated := by
  obtain ⟨tokens, htokens, hexpr⟩ := isExpr_of_readEmbedded? h
  refine worded_of_isExpr (fun _ _ => rfl) (fun said hsaid => bne_iff_ne.mpr ?_) hexpr
  rcases hsaid with rfl | ⟨token, htoken, rfl⟩
  · decide
  · rcases TokenStream.mem_tokens_ofTokens htoken with hmem | heof
    · exact kind_ne_template htokens (by simpa [Cursor.ofText] using template_trimBlanks hraw)
        token hmem
    · simp [heof]

theorem exprs_consChars (text : List Char) (segments : List (Segment Expr)) :
    (consChars text segments).filterMap (·.expr?) = segments.filterMap (·.expr?) := by
  induction text with
  | nil => rfl
  | cons c text ih => exact (Segment.exprs_consChar c _).trans ih

theorem template_of_close {rest source behind : List Char}
    (h : Quoted.template ('$' :: '{' :: rest) = none)
    (hclose : Embedding.close 0 none rest = some (source, behind)) :
    Quoted.template source = none ∧ Quoted.template behind = none := by
  have hrest : Quoted.template rest = none :=
    Quoted.template_behind ['$'] (by decide) h
  rw [Embedding.append_of_close hclose] at hrest
  exact ⟨Quoted.template_of_append hrest, Quoted.template_behind source (by decide) hrest⟩

-- The expressions that are embedded in a template are read from parts of its text.
theorem exists_of_mem_templateSegments (h : Quoted.template raw = none) :
    ∀ e ∈ (templateSegments raw).1.filterMap (·.expr?),
      ∃ text, Quoted.template text = none ∧ readEmbedded? text = some e := by
  fun_induction templateSegments raw with
  | case1 => simp
  | case2 c rest segments unread hrest ih =>
      rw [hrest] at ih
      rw [Segment.exprs_consChar]
      exact ih (by simpa [Quoted.template] using h)
  | case3 rest hclose =>
      rw [exprs_consChars]
      simp
  | case4 rest source behind hclose shorter segments unread hbehind found hfound ih =>
      rw [hbehind] at ih
      obtain ⟨hsource, hothers⟩ := template_of_close h hclose
      exact List.forall_mem_cons.mpr ⟨⟨source, hsource, hfound⟩, ih hothers⟩
  | case5 rest source behind hclose shorter segments unread hbehind hfound ih =>
      rw [hbehind] at ih
      rw [exprs_consChars]
      exact ih (template_of_close h hclose).2
  | case6 c rest hescape _ segments unread hrest ih =>
      rw [hrest] at ih
      rw [Segment.exprs_consChar]
      refine ih ?_
      by_cases hslash : c = '\\'
      · cases rest with
        | nil => rfl
        | cons d rest => exact absurd rfl (hescape d rest hslash)
      · exact Quoted.template_behind [] hslash h

theorem worded_templateSegments (h : Quoted.template raw = none) :
    ∀ e ∈ (templateSegments raw).1.filterMap (·.expr?),
      (e.Worded isUnbroken isProper ∧ e.Shaped .javaScript) ∧ e.Untemplated := by
  intro e he
  obtain ⟨text, htext, hread⟩ := exists_of_mem_templateSegments h e he
  obtain ⟨tokens, htokens, hexpr⟩ := isExpr_of_readEmbedded? hread
  exact ⟨⟨worded_of_tokens htokens hexpr, hexpr.shaped⟩, untemplated_of_readEmbedded? htext hread⟩

end Templates

-- And those of whole programs.
theorem worded_of_parse {module : Module} (h : Diglot.parse .javaScript source = .ok module) :
    ∀ stmt ∈ module.body, stmt.Worded isUnbroken isProper := by
  obtain ⟨tokens, limits, htokens, hmodule⟩ := isModule_of_parse h
  exact fun stmt hstmt => worded_of_isStmt (fun _ => unbroken_of_isWord htokens)
    (fun _ => proper_of_isLiteral htokens) (hmodule.body.stmts stmt hstmt)

end Braced

end Diglot
