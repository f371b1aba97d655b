import Diglot.Proofs.Braced.Agree
import Diglot.Proofs.Indented.Embedded

namespace Diglot

open Diglot.Parser

-- What bounds the readers: the length of embedded sources, and the rounds of those that read
-- expressions and statements.
structure Limits where
  sources : Nat
  expressions : Nat
  statements : Nat

-- Limits that are large enough for a stream over some tokens.
structure Limits.Suffice (limits : Limits) (tokens : List Token) (s : TokenStream) : Prop where
  sources : Indented.longestLexeme tokens ≤ limits.sources
  expressions : s.size ≤ limits.expressions
  statements : s.size ≤ limits.statements

section Readers

variable (dialect : Dialect)

def streamOf (tokens : List Token) : TokenStream :=
  match dialect with
  | .pythonScript => .withLayout tokens
  | .javaScript => .plain tokens

def expressionWith (limits : Limits) : Parser Expr :=
  match dialect with
  | .pythonScript => Indented.expression (Indented.embeddedExpr limits.sources) limits.expressions
  | .javaScript => Braced.expression limits.expressions

def statementWith (limits : Limits) : Parser Stmt :=
  match dialect with
  | .pythonScript => Indented.statement (expressionWith .pythonScript limits) limits.statements
  | .javaScript => Braced.statement (expressionWith .javaScript limits) limits.statements

def programWith (limits : Limits) : Parser Module :=
  match dialect with
  | .pythonScript => Indented.program (expressionWith .pythonScript limits) limits.statements
  | .javaScript => Braced.program (expressionWith .javaScript limits) limits.statements

-- A program is read with the least limits that are large enough.
theorem parseTokens_eq (tokens : List Token) :
    ∃ limits : Limits, limits.Suffice tokens (streamOf dialect tokens) ∧
      parseTokens dialect tokens = (programWith dialect limits).run' (streamOf dialect tokens) := by
  refine ⟨⟨Indented.longestLexeme tokens, (streamOf dialect tokens).size,
    (streamOf dialect tokens).size⟩, ⟨Nat.le_refl _, Nat.le_refl _, Nat.le_refl _⟩, ?_⟩
  cases dialect <;> rfl

end Readers

-- Whether a limit is used up, be it that of a reader of embedded expressions.
def Cause.givesUp : Cause → Prop
  | .invalidInterpolation reason => reason.givesUp
  | cause => cause = .exhausted

-- A failure for which the tokens are to blame and no limit. It is reported at the current token, or
-- at what cannot be assigned to.
structure Stops (s : TokenStream) (failure : Failure) : Prop where
  blamed : ¬ failure.cause.givesUp
  place : failure.pos = s.current.pos ∨ ∃ kind, failure.cause = .invalidTarget kind

-- A reader whose limits do not matter on a stream once they are large enough, and are never used up
-- then. It passes over at least so many tokens, and neither finds a value nor fails behind the
-- first end.
structure Halts {α : Type} (least : Nat) (reader : Limits → Parser α) (tokens : List Token)
    (s : TokenStream) : Prop where
  settled : ∀ {limits more : Limits}, limits.Suffice tokens s → more.Suffice tokens s →
    reader limits s = reader more s
  found : ∀ {limits : Limits} {a t}, limits.Suffice tokens s → reader limits s = .ok (a, t) →
    ∃ passed, s.tokens = passed ++ t.tokens ∧ least ≤ passed.length ∧
      ∀ token ∈ passed, token.kind ≠ .eof
  failed : ∀ {limits : Limits} {failure}, limits.Suffice tokens s →
    reader limits s = .error failure →
    ∃ passed t, s.tokens = passed ++ t.tokens ∧ (∀ token ∈ passed, token.kind ≠ .eof) ∧
      Stops t failure

namespace Indented

variable {tokens : List Token}

theorem embeds_of_suffice {s : TokenStream} {limits more : Limits}
    (hlimits : limits.Suffice tokens s) (hmore : more.Suffice tokens s) :
    Embeds (TokenStream.withLayout tokens).tokens (embeddedExpr limits.sources)
      (embeddedExpr more.sources) := by
  refine embeds_ofTokens (embeddedExpr_shaped _) fun token hmem _ source hsource => ?_
  have hlongest := length_le_longestLexeme hmem
  have hsources := hlimits.sources
  have hmoreSources := hmore.sources
  exact embeddedExpr_eq (by omega) (by omega)

-- How the expressions inside an interpolated text are read: each from a source that is shorter than
-- the text, and whose own interpolated texts are shorter still.
structure Nests (lexeme : String) : Prop where
  sources : ∀ embedded other : List Char → Except Cause Expr,
    (∀ source ∈ embeddedSources lexeme.toList, embedded source = other source) →
      segments embedded lexeme.toList = segments other lexeme.toList
  shorter : ∀ source ∈ embeddedSources lexeme.toList, source.length < lexeme.length
  inner : ∀ source ∈ embeddedSources lexeme.toList, ∀ tokens,
    tokenize (String.ofList (trimBlanks source)) = .ok tokens →
      ∀ token ∈ tokens, token.kind = .interpolated → token.lexeme.length < source.length

theorem nests (lexeme : String) : Nests lexeme where
  sources _ _ h := segments_congr h
  shorter source hsource := by
    rw [← String.length_toList]
    exact length_lt_of_mem_embeddedSources hsource
  inner _ _ _ htokens _ hmem hkind := length_inner_lt htokens hmem hkind

-- Limits that suffice are longer than what is embedded in the current token.
theorem Explains.of_suffice {Q : List Char → Cause → Prop} (hQ : Explains Q) {limits : Limits}
    {s t : TokenStream} (hlimits : limits.Suffice tokens s)
    (hreach : (streamOf .pythonScript tokens).Reaches t) (hkind : t.current.kind = .interpolated) :
    ∀ source ∈ embeddedSources t.current.lexeme.toList, ∀ reason,
      embeddedExpr limits.sources source = .error reason → Q source reason := by
  intro source hsource reason hreason
  have hmem := (TokenStream.mem_tokens_ofTokens (hreach.mem_tokens
    (TokenStream.ended_ofTokens tokens _) (.head _))).resolve_right (by simp [hkind])
  have hshorter := (nests t.current.lexeme).shorter source hsource
  have hlongest := length_le_longestLexeme hmem
  have hsources := hlimits.sources
  exact hQ.of_error (by omega) hreason

end Indented

section Causes

variable {s : TokenStream} {failure : Failure}

theorem not_givesUp_of_blamesBlocks {cause : Cause} (h : cause.blamesBlocks = false) :
    ¬ cause.givesUp := by
  fun_induction Cause.givesUp cause with
  | case1 reason ih => exact ih h
  | case2 cause hother =>
      rintro rfl
      cases h

theorem not_givesUp_of_fails {setting : Setting} (h : setting.Fails s failure)
    (hown : setting.Own s failure → ¬ failure.cause.givesUp) : ¬ failure.cause.givesUp := by
  cases h with
  | unexpected expected =>
      unfold TokenStream.unexpected
      split <;> simp [Cause.givesUp, Cause.exhausted]
  | unbalanced h =>
      cases (TokenStream.eq_of_advance_eq_error h).1
      simp [Cause.givesUp, Cause.exhausted]
  | target _ _ => simp [Cause.givesUp, Cause.exhausted]
  | own h => exact hown h

theorem Indented.not_givesUp_of_own {tokens : List Token} {embedded : Embedder}
    (h : (setting tokens embedded).Own s failure)
    (hembedded : s.current.kind = .interpolated →
      ∀ source ∈ embeddedSources s.current.lexeme.toList, ∀ reason,
        embedded source = .error reason → ¬ reason.givesUp) : ¬ failure.cause.givesUp := by
  rcases h with ⟨hkind, reason, hsegments, rfl⟩ | ⟨-, -, rfl⟩
  · rcases segments_eq_error hsegments with ⟨-, -, -, rfl⟩ | ⟨source, hmem, hsource⟩
    · simp [Cause.givesUp, Cause.exhausted]
    · exact hembedded hkind source hmem reason hsource
  · simp [Cause.givesUp, Cause.exhausted, TokenStream.refused]

-- No limit is used up in an embedded source that is shorter than it.
theorem Indented.explains_givesUp : Explains fun _ reason => ¬ reason.givesUp where
  empty _ := by simp [Cause.givesUp, Cause.exhausted]
  unlexed h := not_givesUp_of_blamesBlocks (blamesBlocks_of_tokenize h)
  unread _ _ hfails hembedded := not_givesUp_of_fails hfails fun hown =>
    not_givesUp_of_own hown hembedded
  trailing _ _ _ := by simp [Cause.givesUp, Cause.exhausted]

end Causes

section Halting

variable {dialect : Dialect} {tokens : List Token} {s : TokenStream} {failure : Failure}

-- What the readers are run on.
def settingOf (dialect : Dialect) (tokens : List Token) (limits : Limits) : Setting :=
  match dialect with
  | .pythonScript =>
      Indented.setting (streamOf .pythonScript tokens).tokens (Indented.embeddedExpr limits.sources)
  | .javaScript => Braced.setting (streamOf .javaScript tokens).tokens

instance (tokens : List Token) (limits : Limits) :
    Indented.Suits (settingOf .pythonScript tokens limits) := ⟨rfl⟩

instance (tokens : List Token) (limits : Limits) :
    Braced.Suits (settingOf .javaScript tokens limits) := inferInstanceAs (Braced.Suits (Braced.setting _))

theorem dialect_settingOf (dialect : Dialect) (tokens : List Token) (limits : Limits) :
    (settingOf dialect tokens limits).dialect = dialect := by
  cases dialect <;> rfl

theorem tokens_settingOf (dialect : Dialect) (tokens : List Token) (limits : Limits) :
    (settingOf dialect tokens limits).tokens = (streamOf dialect tokens).tokens := by
  cases dialect <;> rfl

theorem holds_of_reaches (limits : Limits) (hreach : (streamOf dialect tokens).Reaches s) :
    (settingOf dialect tokens limits).Holds s := by
  refine Setting.Holds.moved ⟨?_, (tokens_settingOf dialect tokens limits) ▸ List.suffix_refl _⟩ hreach
  cases dialect <;> exact TokenStream.ended_ofTokens tokens _

section Limits

variable {limits more : Limits} (hlimits : limits.Suffice tokens s) (hmore : more.Suffice tokens s)

include hlimits hmore

theorem expressionWith_agree (dialect : Dialect) :
    (settingOf dialect tokens limits).ReadsExpr s.size (expressionWith dialect limits)
      (expressionWith dialect more) := by
  cases dialect with
  | pythonScript =>
      exact Indented.expression_agree (Indented.embeds_of_suffice hlimits hmore) hlimits.expressions
        hmore.expressions
  | javaScript => exact Braced.expression_agree hlimits.expressions hmore.expressions

theorem statementWith_agree :
    (settingOf dialect tokens limits).ReadsStmt s.size (statementWith dialect limits)
      (statementWith dialect more) := by
  cases dialect with
  | pythonScript =>
      exact Indented.statement_agree (expressionWith_agree hlimits hmore .pythonScript)
        hlimits.statements hmore.statements
  | javaScript =>
      exact Braced.statement_agree (expressionWith_agree hlimits hmore .javaScript)
        hlimits.statements hmore.statements

theorem programWith_agree :
    (settingOf dialect tokens limits).Agree s.size lax (settingOf dialect tokens limits).IsModule
      (programWith dialect limits) (programWith dialect more) := by
  cases dialect with
  | pythonScript =>
      exact Indented.program_agree (expressionWith_agree hlimits hmore .pythonScript)
        hlimits.statements hmore.statements
  | javaScript =>
      exact Braced.program_agree (expressionWith_agree hlimits hmore .javaScript)
        hlimits.statements hmore.statements

end Limits

theorem stops_of_fails {t : TokenStream} {limits : Limits} (hlimits : limits.Suffice tokens s)
    (hreach : (streamOf dialect tokens).Reaches t)
    (h : (settingOf dialect tokens limits).Fails t failure) : Stops t failure where
  blamed := by
    refine not_givesUp_of_fails h fun hown => ?_
    cases dialect with
    | pythonScript =>
        exact Indented.not_givesUp_of_own hown
          (Indented.explains_givesUp.of_suffice hlimits hreach)
    | javaScript =>
        obtain ⟨explanation, hrefuses, rfl⟩ := hown
        cases hrefuses <;> simp [Cause.givesUp, Cause.exhausted, TokenStream.refused]
  place := by
    cases h with
    | unexpected expected =>
        left
        unfold TokenStream.unexpected
        split <;> rfl
    | unbalanced h => exact .inl (by rw [(TokenStream.eq_of_advance_eq_error h).1])
    | target _ _ => exact .inr ⟨_, rfl⟩
    | own h =>
        cases dialect with
        | pythonScript =>
            rcases h with ⟨-, reason, -, rfl⟩ | ⟨-, -, rfl⟩
            · exact .inl rfl
            · exact .inl rfl
        | javaScript =>
            obtain ⟨explanation, -, rfl⟩ := h
            exact .inl rfl

-- Readers that agree once their limits are large enough.
theorem halts_of_meets {α : Type} {least : Nat} {reader : Limits → Parser α}
    {R : Limits → α → TokenStream → Prop} (hreach : (streamOf dialect tokens).Reaches s)
    (h : ∀ {limits more : Limits}, limits.Suffice tokens s → more.Suffice tokens s →
      (settingOf dialect tokens limits).Meets (fun _ => least) (R limits) s (reader limits s)
        (reader more s)) :
    Halts least reader tokens s where
  settled hlimits hmore := (h hlimits hmore).same
  found {limits a t} hlimits heq := by
    obtain ⟨hpasses, hsize, -⟩ := (h hlimits hlimits).ok heq
    obtain ⟨-, passed, hpassed, hkinds⟩ := hpasses.passes (holds_of_reaches limits hreach).ended
    refine ⟨passed, hpassed, ?_, hkinds⟩
    have hlength := congrArg List.length hpassed
    rw [List.length_append, TokenStream.length_tokens, TokenStream.length_tokens] at hlength
    omega
  failed {limits failure} hlimits heq := by
    obtain ⟨t, hpasses, hfails⟩ := (h hlimits hlimits).error heq
    obtain ⟨-, passed, hpassed, hkinds⟩ := hpasses.passes (holds_of_reaches limits hreach).ended
    exact ⟨passed, t, hpassed, hkinds, stops_of_fails hlimits (hreach.trans hpasses) hfails⟩

theorem expressionWith_halts (hreach : (streamOf dialect tokens).Reaches s) :
    Halts 1 (expressionWith dialect) tokens s :=
  halts_of_meets hreach fun {limits _} hlimits hmore =>
    expressionWith_agree hlimits hmore dialect s (holds_of_reaches limits hreach) (Nat.le_refl _)

theorem statementWith_halts (hreach : (streamOf dialect tokens).Reaches s) :
    Halts 1 (statementWith dialect) tokens s :=
  halts_of_meets hreach fun {limits _} hlimits hmore =>
    (statementWith_agree hlimits hmore).meets (holds_of_reaches limits hreach) (Nat.le_refl _)

theorem programWith_halts (dialect : Dialect) (tokens : List Token) :
    Halts 0 (programWith dialect) tokens (streamOf dialect tokens) :=
  halts_of_meets (.refl _) fun {limits _} hlimits hmore =>
    programWith_agree hlimits hmore _ (holds_of_reaches limits (.refl _)) (Nat.le_refl _)

-- What is read from some tokens, and how reading them fails.

theorem isModule_of_parseTokens {module : Module} (h : parseTokens dialect tokens = .ok module) :
    ∃ limits, (settingOf dialect tokens limits).IsModule module := by
  obtain ⟨limits, hlimits, heq⟩ := parseTokens_eq dialect tokens
  obtain ⟨t, hfound⟩ := exists_of_run' (heq ▸ h)
  exact ⟨limits, ((programWith_agree hlimits hlimits _ (holds_of_reaches limits (.refl _))
    (Nat.le_refl _)).ok hfound).2.2⟩

theorem isModule_of_parse {source : String} {module : Module}
    (h : Diglot.parse dialect source = .ok module) :
    ∃ tokens limits, tokenize dialect source = .ok tokens ∧
      (settingOf dialect tokens limits).IsModule module := by
  obtain ⟨tokens, htokens, h⟩ := exists_of_bind_eq_ok h
  obtain ⟨limits, hmodule⟩ := isModule_of_parseTokens h
  exact ⟨tokens, limits, htokens, hmodule⟩

theorem fails_of_parseTokens (h : parseTokens dialect tokens = .error failure) :
    ∃ limits t, limits.Suffice tokens (streamOf dialect tokens) ∧
      (streamOf dialect tokens).Reaches t ∧ (settingOf dialect tokens limits).Fails t failure := by
  obtain ⟨limits, hlimits, heq⟩ := parseTokens_eq dialect tokens
  obtain ⟨t, hreach, hfails⟩ := (programWith_agree hlimits hlimits _
    (holds_of_reaches limits (.refl _)) (Nat.le_refl _)).error (error_of_map (heq ▸ h))
  exact ⟨limits, t, hlimits, hreach, hfails⟩

end Halting

-- Every list of tokens is read to a result, and no limit is what ends it.
theorem parseTokens_halts (dialect : Dialect) (tokens : List Token) :
    (∀ limits : Limits, limits.Suffice tokens (streamOf dialect tokens) →
      (programWith dialect limits).run' (streamOf dialect tokens) = parseTokens dialect tokens) ∧
    Halts 0 (programWith dialect) tokens (streamOf dialect tokens) ∧
    (∀ s, (streamOf dialect tokens).Reaches s →
      Halts 1 (expressionWith dialect) tokens s ∧ Halts 1 (statementWith dialect) tokens s) ∧
    ∀ token ∈ tokens, token.kind = .interpolated → Indented.Nests token.lexeme := by
  have hprogram := programWith_halts dialect tokens
  refine ⟨fun limits hlimits => ?_, hprogram, fun s hreach => ?_, fun token _ _ => ?_⟩
  · obtain ⟨least, hleast, heq⟩ := parseTokens_eq dialect tokens
    rw [heq, StateT.run', StateT.run', hprogram.settled hlimits hleast]
  · exact ⟨expressionWith_halts hreach, statementWith_halts hreach⟩
  · exact Indented.nests token.lexeme

-- An interpolated text inside another, and tokens behind an end in the middle.
def stray : List Token :=
  [⟨.interpolated, "a\x7bf'\x7bx + 1\x7d'\x7d", ⟨1, 1⟩⟩, ⟨.newline, "\n", ⟨1, 17⟩⟩, ⟨.eof, "", ⟨2, 1⟩⟩,
    ⟨.dedent, "", ⟨2, 1⟩⟩, ⟨.operator, "=>", ⟨2, 1⟩⟩]

theorem parseTokens_halts_stray :
    (programWith .pythonScript ⟨40, 60, 80⟩).run' (streamOf .pythonScript stray) =
        parseTokens .pythonScript stray ∧
      (parseTokens .pythonScript stray).toOption.map (·.body.length) = some 1 ∧
      Halts 1 (statementWith .pythonScript) stray (streamOf .pythonScript stray) ∧
      Indented.Nests "a\x7bf'\x7bx + 1\x7d'\x7d" := by
  obtain ⟨hsettled, -, hcalls, hnests⟩ := parseTokens_halts .pythonScript stray
  refine ⟨hsettled _ ⟨by decide +kernel, by decide, by decide⟩, by decide +kernel,
    (hcalls _ (.refl _)).2, ?_⟩
  exact hnests ⟨.interpolated, "a\x7bf'\x7bx + 1\x7d'\x7d", ⟨1, 1⟩⟩ (.head _) rfl

end Diglot
