import Diglot.Proofs.Indented.Embedded
import Diglot.Proofs.Indented.Layout
import Diglot.Proofs.Indented.Levels
import Diglot.Proofs.Parser.Statements

namespace Diglot.Indented

open Diglot.Parser TokenStream
open Token (op kw word)

-- The keywords that carry on a statement.
abbrev further : List String := ["elif", "else", "except", "finally"]

abbrev leads : Token → Bool :=
  Parser.leads further fun token => [.newline, .indent, .dedent, .eof].contains token.kind

abbrev Apart : List Token → Prop := Parser.Apart further

section Layout

variable {rest tokens : List Token} {blocks : Blocks} {widths : List Nat}

-- What a statement starts with is neither skipped in front of it nor the end of a block.
theorem exists_of_leads (h : tokens.head?.any leads = true) :
    ∃ first more, tokens = first :: more ∧ first.kind ≠ .newline ∧ first.kind ≠ .dedent ∧
      first.kind ≠ .eof := by
  obtain ⟨first, more, htokens, -, hstops⟩ := Parser.exists_of_leads h
  simp only [List.contains_eq_mem, List.mem_cons, List.not_mem_nil, decide_eq_false_iff_not,
    not_or] at hstops
  exact ⟨first, more, htokens, hstops.1, hstops.2.2.1, hstops.2.2.2.1⟩

@[simp]
theorem endOfStatement_newline :
    endOfStatement (ahead (.newline :: rest) blocks) = .ok ((), ahead rest blocks) := by
  have hmove : Parser.advance (ahead (.newline :: rest) blocks) = .ok (.newline, ahead rest blocks) :=
    advance_run rfl
  rw [endOfStatement, bind_of_ok (check_run .newline)]
  exact bind_of_ok hmove

theorem expect_newline :
    expect .newline none (ahead (.newline :: rest) blocks) = .ok (.newline, ahead rest blocks) :=
  advance_run rfl

-- An indent opens a block; which width it is said to have does not matter, since the dedent that
-- closes it takes off whatever is on top.
theorem expect_indent (width : Nat) (rest : List Token) (widths : List Nat) :
    ∃ inner, expect .indent none (ahead (.indent width :: rest) (some widths)) =
      .ok (.indent width, ahead rest (some (inner :: widths))) := by
  have hend : (Token.indent width).kind ≠ .eof := by simp [Token.indent]
  exact ⟨_, advance_ahead_blocks hend rfl⟩

theorem endOfBlock_dedent (inner : Nat) :
    endOfBlock (ahead (.dedent :: rest) (some (inner :: widths))) =
      .ok (true, ahead rest (some widths)) := by
  have hmove : Parser.advance (ahead (.dedent :: rest) (some (inner :: widths))) =
      .ok (.dedent, ahead rest (some widths)) := by
    have hend : Token.dedent.kind ≠ .eof := by simp [Token.dedent]
    exact advance_ahead_blocks hend rfl
  rw [endOfBlock, bind_of_ok (check_run .dedent)]
  exact bind_of_ok hmove

theorem endOfBlock_of_leads (h : tokens.head?.any leads = true) :
    endOfBlock (ahead (tokens ++ rest) blocks) = .ok (false, ahead (tokens ++ rest) blocks) := by
  obtain ⟨first, more, rfl, -, hdedent, hend⟩ := exists_of_leads h
  have hnodedent : (first.kind == TokenKind.dedent) = false := by simpa using hdedent
  have hnoend : (ahead (first :: more ++ rest) blocks).isAtEnd = false := by
    simpa [TokenStream.isAtEnd, ahead] using hend
  rw [endOfBlock, bind_of_ok (check_run .dedent)]
  simp only [List.cons_append, current_ahead_cons, hnodedent, Bool.false_eq_true, if_false]
  rw [bind_of_ok isAtEnd_run, ← List.cons_append, hnoend]
  rfl

theorem skipNewlines_of_leads (h : tokens.head?.any leads = true) :
    skipNewlines (ahead (tokens ++ rest) blocks) = .ok ((), ahead (tokens ++ rest) blocks) := by
  obtain ⟨first, more, rfl, hnewline, -⟩ := exists_of_leads h
  exact skipNewlines_run hnewline

end Layout

-- A statement as it is laid out: the tokens that its lines make at a depth, and the statement that
-- they say.
structure Laid where
  tokens : Nat → List Token
  value : Stmt

-- The expressions inside interpolated strings are read by their own reader.
variable {embedded : Embedder}

-- The tokens of a statement start as a statement does and are read as its value, whatever may
-- follow. A limit on the rounds of all loops suffices if there are no more tokens than rounds.
structure Laid.Sound (embedded : Embedder) (part : Laid) : Prop where
  leads : ∀ depth, (part.tokens depth).head?.any leads = true
  reads : ∀ depth {size limit : Nat} (rest : List Token) (widths : List Nat),
    (part.tokens depth).length ≤ limit → limit ≤ size → Apart rest →
      statement (expression embedded size) limit (ahead (part.tokens depth ++ rest) (some widths)) =
        .ok (part.value, ahead rest (some widths))

-- Lines that statements are laid out in, one behind the other.
inductive Told (embedded : Embedder) (width : Nat) :
    Fragment → List Laid → Prop
  | nil : Told embedded width .empty []
  | cons {first rest : Fragment} {part : Laid} {parts : List Laid}
      (hlays : Lays width first part.tokens) (hsound : part.Sound embedded)
      (hrest : Told embedded width rest parts) : Told embedded width (first ++ rest) (part :: parts)

namespace Told

variable {width : Nat} {fragment other : Fragment} {part : Laid} {parts others : List Laid}

theorem single (hlays : Lays width fragment part.tokens) (hsound : part.Sound embedded) :
    Told embedded width fragment [part] := by
  have h := Told.cons hlays hsound .nil
  rwa [Fragment.append_empty] at h

theorem append (h : Told embedded width fragment parts) (hother : Told embedded width other others) :
    Told embedded width (fragment ++ other) (parts ++ others) := by
  induction h with
  | nil => rwa [Fragment.empty_append]
  | cons hlays hsound _ ih =>
      rw [Fragment.append_assoc]
      exact .cons hlays hsound ih

theorem laysMore (h : Told embedded width fragment parts) :
    LaysMore width fragment fun depth => parts.flatMap (·.tokens depth) := by
  induction h with
  | nil => exact laysMore_empty
  | cons hlays _ _ ih => exact (hlays.append ih).more

theorem lays (h : Told embedded width fragment parts) (hne : parts ≠ []) :
    Lays width fragment fun depth => parts.flatMap (·.tokens depth) := by
  cases h with
  | nil => contradiction
  | cons hlays _ hrest => exact hlays.append hrest.laysMore

theorem sound (h : Told embedded width fragment parts) : ∀ part ∈ parts, part.Sound embedded := by
  induction h with
  | nil => simp
  | cons _ hsound _ ih => exact List.forall_mem_cons.mpr ⟨hsound, ih⟩

end Told

section Blocks

variable {width : Nat} {parts : List Laid} {body : Fragment} {values : List Stmt}

theorem Laid.Sound.length_pos {part : Laid} (h : part.Sound embedded) (depth : Nat) :
    0 < (part.tokens depth).length := by
  obtain ⟨first, more, htokens, -⟩ := exists_of_leads (h.leads depth)
  rw [htokens]
  exact Nat.zero_lt_succ _

-- Statements are read up to the dedent that ends their block.
theorem repeated_block (h : ∀ part ∈ parts, part.Sound embedded) (depth : Nat) {size limit : Nat}
    (hlength : (parts.flatMap (·.tokens depth)).length ≤ limit) (hsize : limit ≤ size)
    (rest : List Token) (inner : Nat) (widths : List Nat) :
    repeated skipNewlines endOfBlock (statement (expression embedded size) limit) (limit + 1)
        (ahead (parts.flatMap (·.tokens depth) ++ .dedent :: rest) (some (inner :: widths))) =
      .ok (parts.map (·.value), ahead rest (some widths)) := by
  have hrounds := length_le_length_tokens fun part hpart => (h part hpart).length_pos depth
  refine repeated_run (show Apart (.dedent :: rest) from rfl)
    (skipNewlines_run (by simp [Token.dedent])) (endOfBlock_dedent inner) ?_ ?_ (by omega)
  · intro part hpart more
    have hleads := (h part hpart).leads depth
    exact ⟨apart_of_leads hleads more, skipNewlines_of_leads hleads, endOfBlock_of_leads hleads⟩
  · intro part hpart more hmore
    have hle := length_le_length_flatMap hpart fun part => part.tokens depth
    exact (h part hpart).reads depth more _ (by omega) hsize hmore

-- Lines are those of a block with the given statements: at a depth they make the tokens `inner`,
-- and these are read behind a colon.
structure Block (embedded : Embedder) (width : Nat) (body : Fragment)
    (inner : Nat → List Token) (values : List Stmt) : Prop where
  lays : Lays width body inner
  reads : ∀ depth {size limit : Nat} (rest : List Token) (widths : List Nat),
    (inner (depth + 1)).length ≤ limit → limit ≤ size →
      block (statement (expression embedded size) limit) (limit + 1)
          (ahead (blockTokens width depth (inner (depth + 1)) ++ rest) (some widths)) =
        .ok (values, ahead rest (some widths))

-- Lines say some statements if they are laid out in them.
def Says (embedded : Embedder) (width : Nat) (fragment : Fragment)
    (values : List Stmt) : Prop :=
  ∃ parts, Told embedded width fragment parts ∧ parts.map (·.value) = values

theorem says_nil : Says embedded width .empty [] := ⟨[], .nil, rfl⟩

theorem Says.append {fragment other : Fragment} {others : List Stmt}
    (h : Says embedded width fragment values) (hother : Says embedded width other others) :
    Says embedded width (fragment ++ other) (values ++ others) := by
  obtain ⟨parts, htold, rfl⟩ := h
  obtain ⟨more, hmore, rfl⟩ := hother
  exact ⟨parts ++ more, htold.append hmore, List.map_append⟩

-- Lines are those of a block with the given statements.
def SaysBlock (embedded : Embedder) (width : Nat) (body : Fragment)
    (values : List Stmt) : Prop :=
  ∃ inner, Block embedded width body inner values

theorem Says.block (h : Says embedded width body values) (hne : values ≠ []) :
    SaysBlock embedded width body values := by
  obtain ⟨parts, htold, rfl⟩ := h
  refine ⟨fun depth => parts.flatMap (·.tokens depth), htold.lays (by simpa using hne), ?_⟩
  intro depth size limit rest widths hlength hsize
  obtain ⟨inner, hindent⟩ := expect_indent ((depth + 1) * width)
    (parts.flatMap (·.tokens (depth + 1)) ++ .dedent :: rest) widths
  have hskip : skipNewlines (ahead (.indent ((depth + 1) * width) ::
      (parts.flatMap (·.tokens (depth + 1)) ++ .dedent :: rest)) (some widths)) = .ok ((), _) :=
    skipNewlines_run (by simp [Token.indent])
  simp only [blockTokens, List.cons_append, List.append_assoc, List.nil_append]
  rw [Indented.block, bind_of_ok (expectOperator_op ":"), bind_of_ok expect_newline,
    bind_of_ok hskip, bind_of_ok hindent]
  exact repeated_block htold.sound (depth + 1) hlength hsize rest inner widths

end Blocks

section Programs

variable {width : Nat} {fragment : Fragment} {parts : List Laid}

-- Statements that are not in a block are read up to the end.
theorem program_run (h : ∀ part ∈ parts, part.Sound embedded) {size : Nat}
    (hsize : (parts.flatMap (·.tokens 0)).length < size) :
    program (expression embedded size) size (ahead (parts.flatMap (·.tokens 0)) (some [])) =
      .ok (⟨parts.map (·.value), (ahead (parts.flatMap (·.tokens 0)) (some [])).current.pos⟩,
        ahead [] (some [])) := by
  have hrounds := length_le_length_tokens fun part hpart => (h part hpart).length_pos 0
  have hread : repeated skipNewlines isAtEnd (statement (expression embedded size) size) size
      (ahead (parts.flatMap (·.tokens 0) ++ []) (some [])) =
        .ok (parts.map (·.value), ahead [] (some [])) := by
    refine repeated_run (show Apart [] from rfl) (skipNewlines_run (by simp [Token.ending])) rfl
      ?_ ?_ (by omega)
    · intro part hpart more
      have hleads := (h part hpart).leads 0
      refine ⟨apart_of_leads hleads more, skipNewlines_of_leads hleads, ?_⟩
      rw [isAtEnd_run, isAtEnd_of_leads (fun _ h => by simp [h]) hleads]
    · intro part hpart more hmore
      have hle := length_le_length_flatMap hpart fun part => part.tokens 0
      exact (h part hpart).reads 0 more _ (by omega) (Nat.le_refl size) hmore
  rw [List.append_nil] at hread
  rw [program, bind_of_ok position_run, bind_of_ok hread]
  rfl

-- Lines that say statements are read as a program of these statements.
theorem parse_of_says (hwidth : 0 < width) {values : List Stmt}
    (h : Says readSource width fragment values) :
    ∃ found, Diglot.parse .pythonScript (fragment.render width) = .ok found ∧
      placeless found.body = placeless values := by
  have : Fact (0 < width) := ⟨hwidth⟩
  obtain ⟨parts, htold, rfl⟩ := h
  obtain ⟨tokens, htokenize, htokens⟩ := Lays.tokenize htold.laysMore
  have hexpected : placeless tokens =
      placeless (parts.flatMap (·.tokens 0) ++ [.ending]) := by
    rw [← placeless_placeless_tokens, htokens]
  have hsize : (ofTokens tokens (some [])).size = (parts.flatMap (·.tokens 0)).length + 1 := by
    rw [size_eq_of_placeless (placeless_ofTokens hexpected _), size_ahead]
  have hprogram := program_run htold.sound (Nat.lt_succ_self _)
  obtain ⟨found, rest, hrun, hfound, -⟩ := run_of_blind
    (program_blind readSource _ _) hexpected hprogram
  -- The reader for embedded expressions may be the one that goes with these tokens.
  have hembeds : Embeds (ofTokens tokens (some [])).tokens readSource
      (embeddedExpr (longestLexeme tokens)) :=
    embeds_readSource fun _ hmem _ => length_le_longestLexeme hmem
  rw [← Nat.succ_eq_add_one] at hsize
  have hsame := (program_agree (expression_agree hembeds (Nat.le_refl _) (Nat.le_refl _))
    (Nat.le_refl _) (Nat.le_refl _) (ofTokens tokens (some []))
    ⟨ended_ofTokens tokens _, List.suffix_refl _⟩ (Nat.le_of_eq hsize)).same
  rw [hrun] at hsame
  refine ⟨found, ?_, congrArg Module.body hfound⟩
  simp only [Diglot.parse, Diglot.tokenize, htokenize, parseTokens, Indented.parse,
    TokenStream.withLayout, hsize, StateT.run', bind, Except.bind]
  rw [← hsame]
  rfl

end Programs

end Diglot.Indented
