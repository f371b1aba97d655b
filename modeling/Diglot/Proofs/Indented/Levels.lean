import Diglot.Proofs.Indented.InStep
import Diglot.Proofs.Indented.Lexed
import Diglot.Proofs.Written

namespace Diglot.Indented

open Diglot.Parser TokenStream
open Grammar (chain chain_reads leftAssoc_opens enclosed_wholes isOperator_of_lt isKeyword_of_lt
  oneOperator_of_lt)
open Token (op kw word)

-- The levels: conditionals (1), `or` (2), `and` (3), `not` (4), comparisons (5), sums (10), products
-- (11), powers (12), signs (13), and what stands alone or has suffixes (14). A sign is looser than
-- what has suffixes, and `not` is looser than a comparison.
def grammar : Grammar where
  binds
    | .operator, lexeme =>
        if [".", "[", "("].contains lexeme then 14
        else if lexeme == "**" then 12
        else if ["*", "/", "//", "%"].contains lexeme then 11
        else if ["+", "-"].contains lexeme then 10
        else if ["<", ">", "<=", ">=", "==", "!="].contains lexeme then 5
        else 0
    | .keyword, lexeme =>
        if ["in", "not"].contains lexeme then 5
        else if lexeme == "and" then 3
        else if lexeme == "or" then 2
        else if lexeme == "if" then 1
        else 0
    | _, _ => 0
  begins
    | rank, .operator, lexeme =>
        ["(", "[", "\x7b"].contains lexeme || (decide (rank ≤ 13) && ["+", "-"].contains lexeme)
    | rank, .keyword, lexeme =>
        ["True", "False", "None", "print"].contains lexeme ||
          (decide (rank ≤ 4) && lexeme == "not")
    | _, .newline, _ | _, .indent, _ | _, .dedent, _ | _, .eof, _ => false
    | _, _, _ => true
  begins_mono {looser rank kind lexeme} hle h := by
    have hsign : decide (rank ≤ 13) = true → decide (looser ≤ 13) = true := by simp; omega
    have hnot : decide (rank ≤ 4) = true → decide (looser ≤ 4) = true := by simp; omega
    cases kind with
    | operator =>
        simp only [Bool.or_eq_true, Bool.and_eq_true] at h ⊢
        exact h.imp_right fun h => ⟨hsign h.1, h.2⟩
    | keyword =>
        simp only [Bool.or_eq_true, Bool.and_eq_true] at h ⊢
        exact h.imp_right fun h => ⟨hnot h.1, h.2⟩
    | _ => exact h

theorem level_le (token : Token) : grammar.level token ≤ 14 := by
  unfold Grammar.level grammar
  dsimp only
  repeat' split
  all_goals omega

section Suffixes

variable (embedded : Embedder) (expression : Parser Expr) (limit : Nat)
  {tokens inner : List Token} {value : Expr}

theorem suffixes_stop {pos : Pos} {s : TokenStream} (h : grammar.level s.current < 14) (rounds : Nat)
    (object : Expr) : suffixes expression limit pos (rounds + 1) object s = .ok (object, s) := by
  have hdot : s.current.isOperator "." = false := isOperator_of_lt h
  have hbracket : s.current.isOperator "[" = false := isOperator_of_lt h
  have hparen : s.current.isOperator "(" = false := isOperator_of_lt h
  rw [suffixes, test_of_false (eatOperator_miss hdot),
    test_of_false (eatOperator_miss hbracket), bind_of_ok (eatOperator_miss hparen)]
  rfl

-- What stands alone may be followed by suffixes.
theorem suffixed_opens (hstarts : grammar.Starts 14 tokens)
    (h : ∀ rest blocks, primary embedded expression limit (ahead (tokens ++ rest) blocks) =
      .ok (value, ahead rest blocks)) :
    grammar.Opens (suffixed embedded expression limit) (suffixes expression limit .start) limit 14 tokens
      value := by
  intro rest blocks _
  refine ⟨limit, Nat.lt_add_of_pos_right hstarts.length_pos, ?_⟩
  rw [suffixed, bind_of_ok position_run, bind_of_ok (h rest blocks), hstarts.pos]

theorem suffixes_member (object : Expr) (name : String) (rounds : Nat) (rest : List Token)
    (blocks : Blocks) :
    suffixes expression limit .start (rounds + 1) object
        (ahead ([op ".", word name] ++ rest) blocks) =
      suffixes expression limit .start rounds (.member object name .start) (ahead rest blocks) := by
  rw [suffixes, List.cons_append, bind_of_ok (eatOperator_op ".")]
  exact bind_of_ok (identifier_word name)

variable {expression limit}

-- The second and later cases of a suffix, once the first are ruled out by the bracket.
theorem suffixes_subscript {object found : Expr} {rest : List Token} {blocks : Blocks}
    (h : subscript expression object .start (ahead (inner ++ op "]" :: rest) blocks) =
      .ok (found, ahead rest blocks)) (rounds : Nat) :
    suffixes expression limit .start (rounds + 1) object
        (ahead ((op "[" :: (inner ++ [op "]"])) ++ rest) blocks) =
      suffixes expression limit .start rounds found (ahead rest blocks) := by
  have hdot : (op "[").isOperator "." = false := rfl
  rw [suffixes, List.cons_append, List.append_assoc, List.singleton_append,
    test_of_false (eatOperator_miss hdot), bind_of_ok (eatOperator_op "[")]
  exact bind_of_ok h

-- A subscript without a colon is an index.
theorem subscript_index (h : grammar.Whole expression inner value) (object : Expr)
    (rest : List Token) (blocks : Blocks) :
    subscript expression object .start (ahead (inner ++ op "]" :: rest) blocks) =
      .ok (.index object value .start, ahead rest blocks) := by
  have hcolon := h.isOperator_eq_false ":" (by decide) (op "]" :: rest) blocks
  have hend : (op "]").isOperator ":" = false := rfl
  rw [subscript, test_of_false (eatOperator_miss hcolon), bind_of_ok (h.run "]" rfl rest blocks),
    test_of_false (eatOperator_miss hend), bind_of_ok (expectOperator_op "]"), pure_run]

variable {π : Type} {parts : List π} {spelled : π → List Token} {meant : π → Expr}

-- The rest of a slice behind its first colon.
theorem sliceRest_run {stop step : Option π}
    (hstop : ∀ part ∈ stop, grammar.Whole expression (spelled part) (meant part))
    (hstep : ∀ part ∈ step, grammar.Whole expression (spelled part) (meant part))
    (object : Expr) (start : Option Expr) (rest : List Token) (blocks : Blocks) :
    sliceRest expression object start .start
        (ahead (stop.elim [] spelled ++ (step.elim [] (op ":" :: spelled ·) ++ op "]" :: rest))
          blocks) =
      .ok (.slice object start (stop.map meant) (step.map meant) .start, ahead rest blocks) := by
  have hend : grammar.level (op "]") = 0 := rfl
  have hcolon : grammar.level (op ":") = 0 := rfl
  have hbracket : grammar.begins 1 .operator "]" = false := rfl
  have hmark : grammar.begins 1 .operator ":" = false := rfl
  cases stop with
  | none =>
      cases step with
      | none => simp [sliceRest, bind_run, map_run, eatOperator_miss]
      | some step =>
          have hstep := hstep step rfl
          simp [sliceRest, bind_run, map_run, hstep.run, hstep.isOperator_eq_false, hend, hbracket]
  | some stop =>
      have hstop := hstop stop rfl
      cases step with
      | none =>
          simp [sliceRest, bind_run, map_run, eatOperator_miss, hstop.run,
            hstop.isOperator_eq_false, hend, hbracket, hmark]
      | some step =>
          have hstep := hstep step rfl
          simp [sliceRest, bind_run, map_run, hstop.run, hstop.isOperator_eq_false, hstep.run,
            hstep.isOperator_eq_false, hend, hcolon, hbracket, hmark]

-- A subscript with a colon is a slice.
theorem subscript_slice {start stop step : Option π}
    (hstart : ∀ part ∈ start, grammar.Whole expression (spelled part) (meant part))
    (hstop : ∀ part ∈ stop, grammar.Whole expression (spelled part) (meant part))
    (hstep : ∀ part ∈ step, grammar.Whole expression (spelled part) (meant part))
    (object : Expr) (rest : List Token) (blocks : Blocks) :
    subscript expression object .start
        (ahead (start.elim [] spelled ++ op ":" :: (stop.elim [] spelled ++
          (step.elim [] (op ":" :: spelled ·) ++ op "]" :: rest))) blocks) =
      .ok (.slice object (start.map meant) (stop.map meant) (step.map meant) .start,
        ahead rest blocks) := by
  have hrest := fun start => sliceRest_run hstop hstep object start rest blocks
  cases start with
  | none =>
      rw [subscript]
      simp only [Option.elim_none, List.nil_append]
      rw [bind_of_ok (eatOperator_op ":")]
      exact hrest none
  | some start =>
      have hstart := hstart start rfl
      rw [subscript]
      simp only [Option.elim_some]
      rw [test_of_false (eatOperator_miss (hstart.isOperator_eq_false _ rfl _ _)),
        bind_of_ok (hstart.run ":" rfl _ _), bind_of_ok (eatOperator_op ":")]
      exact hrest (some (meant start))

-- The entries of a dict are read one by one.
theorem enclosed_entries {parts : List (π × π)}
    (hparts : ∀ part ∈ parts, grammar.Whole expression (spelled part.1) (meant part.1) ∧
      grammar.Whole expression (spelled part.2) (meant part.2))
    (hlimit : parts.length < limit) (rest : List Token) (blocks : Blocks) :
    enclosed "\x7d" (dictEntry expression) limit
        (ahead (commas (parts.map fun part => spelled part.1 ++ op ":" :: spelled part.2) ++
          op "\x7d" :: rest) blocks) =
      .ok (parts.map fun part => ⟨dictKey (meant part.1), meant part.2⟩, ahead rest blocks) := by
  have hlevel : ∀ next ∈ [",", "\x7d"], grammar.level (op next) = 0 := by decide
  refine enclosed_run (by decide) rest ?_ ?_ hlimit
  · intro part hpart next hnext rest
    obtain ⟨hkey, hvalue⟩ := hparts part hpart
    rw [dictEntry, List.append_assoc, List.cons_append, bind_of_ok (hkey.run _ rfl _ _),
      bind_of_ok (expectOperator_op ":"), bind_of_ok (hvalue.run _ (hlevel next hnext) _ _), pure_run]
  · intro part hpart rest
    rw [List.append_assoc]
    exact (hparts part hpart).1.isOperator_eq_false _ (by decide) _ _

theorem suffixes_call (hparts : ∀ part ∈ parts, grammar.Whole expression (spelled part) (meant part))
    (hlimit : parts.length < limit) (callee : Expr) (rounds : Nat) (rest : List Token)
    (blocks : Blocks) :
    suffixes expression limit .start (rounds + 1) callee
        (ahead (op "(" :: (commas (parts.map spelled) ++ [op ")"]) ++ rest) blocks) =
      suffixes expression limit .start rounds (.call callee (parts.map meant) .start)
        (ahead rest blocks) := by
  have hdot : (op "(").isOperator "." = false := rfl
  have hbracket : (op "(").isOperator "[" = false := rfl
  rw [suffixes, List.cons_append, List.append_assoc, List.singleton_append,
    test_of_false (eatOperator_miss hdot), test_of_false (eatOperator_miss hbracket),
    bind_of_ok (eatOperator_op "(")]
  exact bind_of_ok (enclosed_wholes ")" (by decide) ⟨rfl, rfl⟩ hparts hlimit rest blocks)

end Suffixes

section Loosening

variable {embedded : Embedder} {expression : Parser Expr} {limit rank : Nat}
  {tokens : List Token} {value : Expr} {s : TokenStream}

theorem joinedBy_kw (keyword : String) (joint : BoolOp) {blocks : Blocks} :
    joinedBy keyword joint (ahead (kw keyword :: tokens) blocks) =
      .ok (some joint, ahead tokens blocks) := by
  rw [joinedBy, bind_of_ok (eatKeyword_kw keyword)]
  rfl

theorem joinedBy_of_binds {keyword : String} {joint : BoolOp}
    (h : grammar.level s.current < grammar.level (kw keyword)) :
    joinedBy keyword joint s = .ok (none, s) := by
  rw [joinedBy, bind_of_ok (eatKeyword_miss (isKeyword_of_lt h))]
  rfl

theorem compareOp_of_binds (h : grammar.level s.current < 5) : compareOp? s = .ok (none, s) := by
  have hin : s.current.isKeyword "in" = false := isKeyword_of_lt h
  have hnot : s.current.isKeyword "not" = false := isKeyword_of_lt h
  have hmiss : oneOperator compareOps s = .ok (none, s) := oneOperator_of_lt (by decide) h
  rw [compareOp?, bind_of_ok hmiss]
  dsimp only
  rw [test_of_false (eatKeyword_miss hin), bind_of_ok (checkKeyword_run "not"), hnot]
  rfl

-- What each level reads is read by the next looser level in the same way.

theorem signed_of_suffixed (hstarts : grammar.Starts 14 tokens)
    (h : grammar.Opens (suffixed embedded expression limit) (suffixes expression limit .start) limit 14
      tokens value) (hlimit : tokens.length ≤ limit) {rounds : Nat} (hrounds : 0 < rounds) :
    grammar.ReadsAs (signed embedded expression limit rounds) 13 tokens value := by
  have hread := (h.readsAs hlimit fun rest blocks hrest =>
    suffixes_stop expression limit hrest).mono (Nat.le_succ 13)
  cases rounds with
  | zero => cases hrounds
  | succ rounds =>
      intro rest blocks hrest
      have hsigns : ∀ entry ∈ signOps, grammar.begins 14 .operator entry.1 = false := by decide
      have hmiss : oneOperator signOps (ahead (tokens ++ rest) blocks) =
          .ok (none, ahead (tokens ++ rest) blocks) :=
        oneOperator_miss fun entry hentry => hstarts.isOperator_eq_false (hsigns entry hentry)
      rw [signed, bind_of_ok position_run, bind_of_ok hmiss]
      exact hread rest blocks hrest

theorem power_of_signed (h : grammar.ReadsAs (signed embedded expression limit limit) 13 tokens value)
    {rounds : Nat} (hrounds : 0 < rounds) :
    grammar.ReadsAs (power embedded expression limit rounds) 12 tokens value := by
  cases rounds with
  | zero => cases hrounds
  | succ rounds =>
      intro rest blocks hrest
      rw [power, bind_of_ok position_run, bind_of_ok (h rest blocks (Nat.lt_succ_of_lt hrest)),
        bind_of_ok (eatOperator_miss (isOperator_of_lt hrest))]
      rfl

theorem comparison_of_sum (h : grammar.ReadsAs (sum embedded expression limit) 10 tokens value)
    (hlimit : 0 < limit) :
    grammar.ReadsAs (comparison embedded expression limit) 5 tokens value := by
  intro rest blocks hrest
  rw [comparison_eq, bind_of_ok position_run, bind_of_ok (h rest blocks (by omega)),
    bind_of_ok (whilst_stop (compareOp_of_binds hrest) hlimit)]
  rfl

theorem negation_of_comparison (hstarts : grammar.Starts 5 tokens)
    (h : grammar.ReadsAs (comparison embedded expression limit) 5 tokens value)
    {rounds : Nat} (hrounds : 0 < rounds) :
    grammar.ReadsAs (negation embedded expression limit rounds) 4 tokens value := by
  cases rounds with
  | zero => cases hrounds
  | succ rounds =>
      intro rest blocks hrest
      have hnot : (ahead (tokens ++ rest) blocks).current.isKeyword "not" = false :=
        hstarts.isKeyword_eq_false rfl
      rw [negation, bind_of_ok position_run, bind_of_ok (eatKeyword_miss hnot)]
      exact h rest blocks (Nat.lt_succ_of_lt hrest)

theorem conjunction_reads (h : grammar.Opens (conjunction embedded expression limit)
      (chain (joinedBy "and" .and) (negation embedded expression limit limit) .logical)
      limit 3 tokens value) (hlimit : tokens.length ≤ limit) :
    grammar.ReadsAs (conjunction embedded expression limit) 3 tokens value :=
  h.readsAs hlimit fun _ _ hrest => chainLeft_stop (joinedBy_of_binds hrest)

theorem disjunction_reads (h : grammar.Opens (disjunction embedded expression limit)
      (chain (joinedBy "or" .or) (conjunction embedded expression limit) .logical)
      limit 2 tokens value) (hlimit : tokens.length ≤ limit) :
    grammar.ReadsAs (disjunction embedded expression limit) 2 tokens value :=
  h.readsAs hlimit fun _ _ hrest => chainLeft_stop (joinedBy_of_binds hrest)

theorem conditional_of_disjunction
    (h : grammar.ReadsAs (disjunction embedded expression limit) 2 tokens value) :
    grammar.ReadsAs (conditional embedded expression limit) 1 tokens value := by
  intro rest blocks hrest
  rw [conditional, bind_of_ok position_run, bind_of_ok (h rest blocks (Nat.lt_succ_of_lt hrest)),
    bind_of_ok (eatKeyword_miss (isKeyword_of_lt hrest))]
  rfl

variable (embedded expression limit)

-- The tokens are read as the value at the level of a rank.
def ReadsAt (rank : Nat) (tokens : List Token) (value : Expr) : Prop :=
  match rank with
  | 0 | 1 => grammar.ReadsAs (conditional embedded expression limit) 1 tokens value
  | 2 =>
      grammar.Opens (disjunction embedded expression limit)
        (chain (joinedBy "or" .or) (conjunction embedded expression limit) .logical)
        limit 2 tokens value
  | 3 =>
      grammar.Opens (conjunction embedded expression limit)
        (chain (joinedBy "and" .and) (negation embedded expression limit limit) .logical)
        limit 3 tokens value
  | 4 =>
      ∀ rounds, tokens.length ≤ rounds →
        grammar.ReadsAs (negation embedded expression limit rounds) 4 tokens value
  | 5 => grammar.ReadsAs (comparison embedded expression limit) 5 tokens value
  | 6 | 7 | 8 | 9 | 10 =>
      grammar.Opens (sum embedded expression limit)
        (chain (oneOperator additiveOps) (product embedded expression limit) .binary)
        limit 10 tokens value
  | 11 =>
      grammar.Opens (product embedded expression limit)
        (chain (oneOperator multiplicativeOps) (power embedded expression limit limit) .binary)
        limit 11 tokens value
  | 12 =>
      ∀ rounds, tokens.length ≤ rounds →
        grammar.ReadsAs (power embedded expression limit rounds) 12 tokens value
  | 13 =>
      ∀ rounds, tokens.length ≤ rounds →
        grammar.ReadsAs (signed embedded expression limit rounds) 13 tokens value
  | _ =>
      grammar.Opens (suffixed embedded expression limit) (suffixes expression limit .start) limit 14
        tokens value

variable {embedded expression limit}

theorem ReadsAt.loosen (hstarts : grammar.Starts (rank + 1) tokens) (hlimit : tokens.length ≤ limit)
    (h : ReadsAt embedded expression limit (rank + 1) tokens value) :
    ReadsAt embedded expression limit rank tokens value := by
  have hstart : grammar.Starts 1 tokens := hstarts.mono (by omega)
  have hmore : ∀ rounds, tokens.length ≤ rounds → 0 < rounds := fun _ =>
    Nat.lt_of_lt_of_le hstart.length_pos
  match rank with
  | 0 => exact h
  | 1 => exact conditional_of_disjunction (disjunction_reads h hlimit)
  | 2 => exact leftAssoc_opens hstart (conjunction_reads h hlimit)
  | 3 => exact leftAssoc_opens hstart (h limit hlimit)
  | 4 => exact fun rounds hrounds => negation_of_comparison hstarts h (hmore rounds hrounds)
  | 5 => exact comparison_of_sum (chain_reads (by decide) h hlimit) (hmore limit hlimit)
  | 6 | 7 | 8 | 9 => exact h
  | 10 => exact leftAssoc_opens hstart (chain_reads (by decide) h hlimit)
  | 11 => exact leftAssoc_opens hstart (h limit hlimit)
  | 12 => exact fun rounds hrounds => power_of_signed (h limit hlimit) (hmore rounds hrounds)
  | 13 => exact fun rounds hrounds => signed_of_suffixed hstarts h hlimit (hmore rounds hrounds)
  | _ + 14 => exact h

end Loosening

abbrev frontEnd (embedded : Embedder) : FrontEnd where
  scanner := scanner
  grammar := grammar
  opens _ := opensText
  opens_mono _ h := h
  expression := expression embedded
  ReadsAt limit := ReadsAt embedded (expression embedded limit) (limit + 1)
  mono hstarts hlimit := hstarts.descend (P := fun rank => ReadsAt _ _ _ rank _ _)
    fun _ hstarts h => h.loosen hstarts hlimit
  whole h := h

end Diglot.Indented
