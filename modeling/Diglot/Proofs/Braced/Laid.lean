import Diglot.Proofs.Braced.Levels
import Diglot.Proofs.Parser.Statements

namespace Diglot.Braced

open Diglot.Parser TokenStream
open Fragment (textAt textAt_append textAt_indent textAt_phrase toList_render)
open Token (op kw word)

section Lines

variable {width : Nat} {first second : Fragment} {phrase : Phrase} {text : List Char}
  {tokens others : List Token}

-- Lines are made into tokens, however far they are indented and whatever comes behind them.
def Lays (width : Nat) (fragment : Fragment) (tokens : List Token) : Prop :=
  ∀ ⦃depth rest more⦄, Lexes rest more →
    Lexes (textAt width depth fragment ++ rest) (tokens ++ more)

theorem lays_empty : Lays width .empty [] := fun _ _ _ hrest => hrest

theorem Lays.append (hfirst : Lays width first tokens) (hsecond : Lays width second others) :
    Lays width (first ++ second) (tokens ++ others) := by
  intro depth rest more hrest
  rw [textAt_append, List.append_assoc, List.append_assoc]
  exact hfirst (hsecond hrest)

theorem Lays.indent (h : Lays width first tokens) : Lays width first.indent tokens := by
  intro depth rest more hrest
  rw [textAt_indent]
  exact h hrest

-- One line.
theorem lays_phrase (phrase : Phrase) (h : scanner.LexesAs phrase.text.toList tokens) :
    Lays width (.phrase phrase) tokens := by
  intro depth rest more hrest
  have hends : Ends ('\n' :: rest) := ⟨rfl, rfl⟩
  have hline : scanner.lexes () (phrase.text.toList ++ '\n' :: rest) (tokens ++ more) :=
    h hends hrest.newline
  rw [textAt_phrase, List.append_assoc, List.append_assoc, List.singleton_append]
  exact Lexes.blanks hline (depth * width)

-- The tokens of a program are those of its lines.
theorem Lays.tokenize (h : Lays width first tokens) :
    ∃ found, Braced.tokenize (first.render width) = .ok found ∧
      placeless found = tokens ++ [.ending] := by
  have hlines : Lexes (textAt width 0 first ++ []) (tokens ++ [.ending]) := h lexes_nil
  rw [List.append_nil, ← toList_render] at hlines
  exact hlines .start

end Lines

-- The keywords that carry on a statement.
abbrev further : List String := ["else", "catch", "finally"]

abbrev leads : Token → Bool := Parser.leads further fun token =>
  token.isOperator ";" || token.isOperator "\x7d" || token.kind == .eof

abbrev Apart : List Token → Prop := Parser.Apart further

section Layout

variable {tokens rest : List Token} {blocks : Blocks}

-- What a statement starts with is neither skipped in front of it nor the end of a block.
theorem exists_of_leads (h : tokens.head?.any leads = true) :
    ∃ first more, tokens = first :: more ∧ first.isOperator ";" = false ∧
      first.isOperator "\x7d" = false ∧ first.kind ≠ .eof := by
  obtain ⟨first, more, htokens, -, hstops⟩ := Parser.exists_of_leads h
  simp only [Bool.or_eq_false_iff, beq_eq_false_iff_ne] at hstops
  exact ⟨first, more, htokens, hstops.1.1, hstops.1.2, hstops.2⟩

theorem skipSemicolons_of_leads (h : tokens.head?.any leads = true) :
    skipSemicolons (ahead (tokens ++ rest) blocks) = .ok ((), ahead (tokens ++ rest) blocks) := by
  obtain ⟨first, more, rfl, hsemicolon, -⟩ := exists_of_leads h
  exact skipSemicolons_run hsemicolon

theorem endOfBlock_of_leads (h : tokens.head?.any leads = true) :
    endOfBlock (ahead (tokens ++ rest) blocks) = .ok (false, ahead (tokens ++ rest) blocks) := by
  have hnoend : (ahead (tokens ++ rest) blocks).isAtEnd = false :=
    isAtEnd_of_leads (fun _ h => by simp [h]) h
  obtain ⟨first, more, rfl, -, hbrace, -⟩ := exists_of_leads h
  have hmiss : eatOperator "\x7d" (ahead (first :: more ++ rest) blocks) = .ok (false, _) :=
    eatOperator_miss hbrace
  rw [endOfBlock, test_of_false hmiss, bind_of_ok isAtEnd_run, hnoend]
  rfl

theorem endOfBlock_brace :
    endOfBlock (ahead (op "\x7d" :: rest) blocks) = .ok (true, ahead rest blocks) := by
  rw [endOfBlock, bind_of_ok (eatOperator_op "\x7d")]
  rfl

theorem endOfStatement_semicolon :
    endOfStatement (ahead (op ";" :: rest) blocks) = .ok ((), ahead rest blocks) := by
  rw [endOfStatement, bind_of_ok (eatOperator_op ";")]
  rfl

end Layout

-- A statement as it is laid out: the tokens that its lines make, and the statement that they say.
structure Laid where
  tokens : List Token
  value : Stmt

-- The tokens of a statement start as a statement does and are read as its value, whatever may
-- follow. A limit on the rounds of all loops suffices if there are no more tokens than rounds.
structure Laid.Sound (part : Laid) : Prop where
  leads : part.tokens.head?.any leads = true
  reads : ∀ {size limit : Nat} (rest : List Token) (blocks : Blocks),
    part.tokens.length ≤ limit → limit ≤ size → Apart rest →
      statement (expression size) limit (ahead (part.tokens ++ rest) blocks) =
        .ok (part.value, ahead rest blocks)

theorem Laid.Sound.length_pos {part : Laid} (h : part.Sound) : 0 < part.tokens.length := by
  obtain ⟨first, more, htokens, -⟩ := exists_of_leads h.leads
  rw [htokens]
  exact Nat.zero_lt_succ _

section Blocks

variable {width : Nat} {parts : List Laid} {fragment other : Fragment} {values others : List Stmt}

-- Statements are read up to the brace that ends their block.
theorem block_run (h : ∀ part ∈ parts, part.Sound) {size limit : Nat}
    (hlength : (parts.flatMap Laid.tokens).length ≤ limit) (hsize : limit ≤ size)
    (rest : List Token) (blocks : Blocks) :
    block (statement (expression size) limit) (limit + 1)
        (ahead (op "\x7b" :: (parts.flatMap Laid.tokens ++ op "\x7d" :: rest)) blocks) =
      .ok (parts.map Laid.value, ahead rest blocks) := by
  have hrounds := length_le_length_tokens fun part hpart => (h part hpart).length_pos
  rw [block, bind_of_ok (expectOperator_op "\x7b")]
  refine repeated_run (show Apart (op "\x7d" :: rest) from rfl) (skipSemicolons_run rfl)
    endOfBlock_brace ?_ ?_ (by omega)
  · intro part hpart more
    have hleads := (h part hpart).leads
    exact ⟨apart_of_leads hleads more, skipSemicolons_of_leads hleads, endOfBlock_of_leads hleads⟩
  · intro part hpart more hmore
    have hle := length_le_length_flatMap hpart Laid.tokens
    exact (h part hpart).reads more blocks (by omega) hsize hmore

-- Lines say some statements if they are made into their tokens.
def Says (width : Nat) (fragment : Fragment) (values : List Stmt) : Prop :=
  ∃ parts : List Laid, Lays width fragment (parts.flatMap Laid.tokens) ∧
    (∀ part ∈ parts, part.Sound) ∧ parts.map Laid.value = values

theorem says_nil : Says width .empty [] := ⟨[], lays_empty, by simp, rfl⟩

theorem Says.append (h : Says width fragment values) (hother : Says width other others) :
    Says width (fragment ++ other) (values ++ others) := by
  obtain ⟨parts, hlays, hsound, rfl⟩ := h
  obtain ⟨more, hmore, hothers, rfl⟩ := hother
  refine ⟨parts ++ more, ?_, List.forall_mem_append.mpr ⟨hsound, hothers⟩, List.map_append⟩
  rw [List.flatMap_append]
  exact hlays.append hmore

-- Lines are those of a block with the given statements: they make the tokens `inner`, and these are
-- read between braces.
structure Block (width : Nat) (body : Fragment) (inner : List Token) (values : List Stmt) :
    Prop where
  lays : Lays width body inner
  reads : ∀ {size limit : Nat} (rest : List Token) (blocks : Blocks),
    inner.length ≤ limit → limit ≤ size →
      block (statement (expression size) limit) (limit + 1)
          (ahead (op "\x7b" :: (inner ++ op "\x7d" :: rest)) blocks) =
        .ok (values, ahead rest blocks)

theorem Says.block (h : Says width fragment values) :
    ∃ inner, Block width fragment inner values := by
  obtain ⟨parts, hlays, hsound, rfl⟩ := h
  exact ⟨_, hlays, fun rest blocks hlength hsize => block_run hsound hlength hsize rest blocks⟩

-- A body that starts with a brace is a block.
theorem body_brace (statement : Parser Stmt) (limit : Nat) (rest : List Token)
    (blocks : Blocks) :
    body statement limit (ahead (op "\x7b" :: rest) blocks) =
      block statement limit (ahead (op "\x7b" :: rest) blocks) := by
  rw [body, bind_of_ok (checkOperator_run "\x7b")]
  rfl

end Blocks

section Programs

variable {width : Nat} {fragment : Fragment} {parts : List Laid}

-- Statements that are not in a block are read up to the end.
theorem program_run (h : ∀ part ∈ parts, part.Sound) {size : Nat}
    (hsize : (parts.flatMap Laid.tokens).length < size) (blocks : Blocks) :
    program (expression size) size (ahead (parts.flatMap Laid.tokens) blocks) =
      .ok (⟨parts.map Laid.value, (ahead (parts.flatMap Laid.tokens) blocks).current.pos⟩,
        ahead [] blocks) := by
  have hrounds := length_le_length_tokens fun part hpart => (h part hpart).length_pos
  have hread : repeated skipSemicolons isAtEnd (statement (expression size) size) size
      (ahead (parts.flatMap Laid.tokens ++ []) blocks) =
        .ok (parts.map Laid.value, ahead [] blocks) := by
    refine repeated_run (show Apart [] from rfl) (skipSemicolons_run rfl) rfl ?_ ?_ (by omega)
    · intro part hpart more
      have hleads := (h part hpart).leads
      refine ⟨apart_of_leads hleads more, skipSemicolons_of_leads hleads, ?_⟩
      rw [isAtEnd_run, isAtEnd_of_leads (fun _ h => by simp [h]) hleads]
    · intro part hpart more hmore
      have hle := length_le_length_flatMap hpart Laid.tokens
      exact (h part hpart).reads more blocks (by omega) (Nat.le_refl size) hmore
  rw [List.append_nil] at hread
  rw [program, bind_of_ok position_run, bind_of_ok hread]
  rfl

-- Lines that say statements are read as a program of these statements.
theorem parse_of_says {values : List Stmt} (h : Says width fragment values) :
    ∃ found, Diglot.parse .javaScript (fragment.render width) = .ok found ∧
      placeless found.body = placeless values := by
  obtain ⟨parts, hlays, hsound, rfl⟩ := h
  obtain ⟨tokens, htokenize, htokens⟩ := hlays.tokenize
  have hexpected : placeless tokens = placeless (parts.flatMap Laid.tokens ++ [.ending]) := by
    rw [← placeless_placeless_tokens, htokens]
  have hsize : (ofTokens tokens none).size = (parts.flatMap Laid.tokens).length + 1 := by
    rw [size_eq_of_placeless (placeless_ofTokens hexpected _), size_ahead]
  have hprogram := program_run hsound (Nat.lt_succ_self _) none
  obtain ⟨found, rest, hrun, hfound, -⟩ :=
    run_of_blind (program_blind _ _) hexpected hprogram
  refine ⟨found, ?_, congrArg Module.body hfound⟩
  simp only [Diglot.parse, Diglot.tokenize, htokenize, parseTokens, Braced.parse,
    TokenStream.plain, hsize, StateT.run', bind, Except.bind]
  rw [hrun]
  rfl

end Programs

end Diglot.Braced
