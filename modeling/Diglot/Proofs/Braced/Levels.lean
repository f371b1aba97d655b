import Diglot.Proofs.Braced.Blind
import Diglot.Proofs.Braced.Lexed
import Diglot.Proofs.Written

namespace Diglot.Braced

open Diglot.Parser TokenStream
open Grammar (chain chain_reads leftAssoc_opens enclosed_wholes isOperator_of_lt)
open Token (op kw word)

-- The levels: conditionals (1), `||` (2), `&&` (3), equality (4), order (5), sums (10), products
-- (11), powers (12), operators in front of an operand (13), and what stands alone or has suffixes
-- (14).
def grammar : Grammar where
  binds
    | .operator, lexeme =>
        if [".", "[", "("].contains lexeme then 14
        else if lexeme == "**" then 12
        else if ["*", "/", "%"].contains lexeme then 11
        else if ["+", "-"].contains lexeme then 10
        else if ["<", ">", "<=", ">="].contains lexeme then 5
        else if ["===", "==", "!==", "!="].contains lexeme then 4
        else if lexeme == "&&" then 3
        else if lexeme == "||" then 2
        else if lexeme == "?" then 1
        else 0
    | _, _ => 0
  begins
    | rank, .operator, lexeme =>
        ["(", "[", "\x7b"].contains lexeme ||
          (decide (rank ≤ 13) && ["!", "+", "-"].contains lexeme)
    | _, .keyword, lexeme => ["true", "false", "null", "this", "super", "new"].contains lexeme
    | _, .newline, _ | _, .indent, _ | _, .dedent, _ | _, .eof, _ => false
    | _, _, _ => true
  begins_mono {looser rank kind lexeme} hle h := by
    have hsign : decide (rank ≤ 13) = true → decide (looser ≤ 13) = true := by simp; omega
    cases kind with
    | operator =>
        simp only [Bool.or_eq_true, Bool.and_eq_true] at h ⊢
        exact h.imp_right fun h => ⟨hsign h.1, h.2⟩
    | _ => exact h

theorem level_le (token : Token) : grammar.level token ≤ 14 := by
  unfold Grammar.level grammar
  dsimp only
  repeat' split
  all_goals omega

theorem propertyName_run (name : String) (rest : List Token) (blocks : Blocks) :
    propertyName (ahead (wordToken name :: rest) blocks) = .ok (name, ahead rest blocks) := by
  have hmove : Parser.advance (ahead (wordToken name :: rest) blocks) =
      .ok (wordToken name, ahead rest blocks) := by
    unfold wordToken
    split
    · exact advance_kw name
    · exact advance_word name
  have hkind : ((wordToken name).kind == .identifier || (wordToken name).kind == .keyword) =
      true := by
    unfold wordToken
    split <;> rfl
  rw [propertyName, bind_of_ok current_run, current_ahead_cons, hkind]
  simp only [if_true]
  rw [bind_of_ok hmove]
  rfl

section Suffixes

variable (expression : Parser Expr) (limit : Nat) {tokens : List Token} {value : Expr}

theorem suffixes_stop {pos : Pos} {s : TokenStream} (h : grammar.level s.current < 14)
    (rounds : Nat) (object : Expr) :
    suffixes expression limit pos (rounds + 1) object s = .ok (object, s) := by
  have hdot : s.current.isOperator "." = false := isOperator_of_lt h
  have hbracket : s.current.isOperator "[" = false := isOperator_of_lt h
  have hparen : s.current.isOperator "(" = false := isOperator_of_lt h
  rw [suffixes, test_of_false (eatOperator_miss hdot),
    test_of_false (eatOperator_miss hbracket), bind_of_ok (eatOperator_miss hparen)]
  rfl

-- What stands alone may be followed by suffixes.
theorem suffixed_opens (hstarts : grammar.Starts 14 tokens)
    (h : ∀ rest blocks, grammar.level (ahead rest blocks).current ≤ 14 →
      primary expression limit (ahead (tokens ++ rest) blocks) = .ok (value, ahead rest blocks)) :
    grammar.Opens (suffixed expression limit) (suffixes expression limit .start) limit 14 tokens
      value := by
  intro rest blocks hrest
  refine ⟨limit, Nat.lt_add_of_pos_right hstarts.length_pos, ?_⟩
  rw [suffixed, bind_of_ok position_run, bind_of_ok (h rest blocks hrest), hstarts.pos]

theorem suffixes_member (object : Expr) (name : String) (rounds : Nat) (rest : List Token)
    (blocks : Blocks) :
    suffixes expression limit .start (rounds + 1) object
        (ahead ([op ".", wordToken name] ++ rest) blocks) =
      suffixes expression limit .start rounds (.member object name .start) (ahead rest blocks) := by
  rw [suffixes, List.cons_append, bind_of_ok (eatOperator_op ".")]
  exact bind_of_ok (propertyName_run name rest blocks)

variable {expression limit}

theorem suffixes_index {inner : List Token} (h : grammar.Whole expression inner value)
    (object : Expr) (rounds : Nat) (rest : List Token) (blocks : Blocks) :
    suffixes expression limit .start (rounds + 1) object
        (ahead ((op "[" :: (inner ++ [op "]"])) ++ rest) blocks) =
      suffixes expression limit .start rounds (.index object value .start) (ahead rest blocks) := by
  have hdot : (op "[").isOperator "." = false := rfl
  rw [suffixes, List.cons_append, List.append_assoc, List.singleton_append,
    test_of_false (eatOperator_miss hdot), test_of_true (eatOperator_op "["),
    bind_of_ok (h.run "]" rfl rest blocks), bind_of_ok (expectOperator_op "]")]

variable {π : Type} {parts : List π} {spelled : π → List Token} {meant : π → Expr}

theorem suffixes_call
    (hparts : ∀ part ∈ parts, grammar.Whole expression (spelled part) (meant part))
    (hlimit : parts.length < limit) (callee : Expr) (rounds : Nat) (rest : List Token)
    (blocks : Blocks) :
    suffixes expression limit .start (rounds + 1) callee
        (ahead (op "(" :: (commas (parts.map spelled) ++ [op ")"]) ++ rest) blocks) =
      suffixes expression limit .start rounds (.call callee (parts.map meant) .start)
        (ahead rest blocks) := by
  have hdot : (op "(").isOperator "." = false := rfl
  have hbracket : (op "(").isOperator "[" = false := rfl
  rw [suffixes, List.cons_append, List.append_assoc, List.singleton_append,
    test_of_false (eatOperator_miss hdot), test_of_false (eatOperator_miss hbracket),
    bind_of_ok (eatOperator_op "(")]
  exact bind_of_ok (enclosed_wholes ")" (by decide) ⟨rfl, rfl⟩ hparts hlimit rest blocks)

-- The call of a constructor that is named without dots.
theorem construction_run
    (hparts : ∀ part ∈ parts, grammar.Whole expression (spelled part) (meant part))
    (hlimit : parts.length < limit) (name : String) (rest : List Token)
    (blocks : Blocks) :
    construction expression limit
        (ahead (kw "new" :: word name :: op "(" :: (commas (parts.map spelled) ++ op ")" :: rest))
          blocks) =
      .ok (.construct (.var name .start) (parts.map meant) .start, ahead rest blocks) := by
  have hdot : (op "(").isOperator "." = false := rfl
  have hstop : (do if ← eatOperator "." then return some () else return none : Parser (Option Unit))
      (ahead (op "(" :: (commas (parts.map spelled) ++ op ")" :: rest)) blocks) =
        .ok (none, ahead (op "(" :: (commas (parts.map spelled) ++ op ")" :: rest)) blocks) := by
    rw [bind_of_ok (eatOperator_miss hdot)]
    rfl
  rw [construction, bind_of_ok position_run, bind_of_ok (expectKeyword_kw "new"),
    bind_of_ok (identifier_word name), bind_of_ok (whilst_stop hstop (Nat.zero_lt_of_lt hlimit)),
    bind_of_ok (eatOperator_op "(")]
  exact bind_of_ok (enclosed_wholes ")" (by decide) ⟨rfl, rfl⟩ hparts hlimit rest blocks)

end Suffixes

section Loosening

variable {expression : Parser Expr} {limit : Nat} {tokens : List Token} {value : Expr}

-- What each level reads is read by the next looser level in the same way.

theorem unary_of_suffixed (hstarts : grammar.Starts 14 tokens)
    (h : grammar.Opens (suffixed expression limit) (suffixes expression limit .start) limit 14
      tokens value) (hlimit : tokens.length ≤ limit) {rounds : Nat} (hrounds : 0 < rounds) :
    grammar.ReadsAs (unary expression limit rounds) 13 tokens value := by
  have hread := (h.readsAs hlimit fun rest blocks hrest =>
    suffixes_stop expression limit hrest).mono (Nat.le_succ 13)
  cases rounds with
  | zero => cases hrounds
  | succ rounds =>
      intro rest blocks hrest
      have hops : ∀ entry ∈ unaryOps, grammar.begins 14 .operator entry.1 = false := by decide
      have hmiss : oneOperator unaryOps (ahead (tokens ++ rest) blocks) =
          .ok (none, ahead (tokens ++ rest) blocks) :=
        oneOperator_miss fun entry hentry => hstarts.isOperator_eq_false (hops entry hentry)
      rw [unary, bind_of_ok position_run, bind_of_ok hmiss]
      exact hread rest blocks hrest

theorem power_of_unary (h : grammar.ReadsAs (unary expression limit limit) 13 tokens value)
    {rounds : Nat} (hrounds : 0 < rounds) :
    grammar.ReadsAs (power expression limit rounds) 12 tokens value := by
  cases rounds with
  | zero => cases hrounds
  | succ rounds =>
      intro rest blocks hrest
      rw [power, bind_of_ok position_run, bind_of_ok (h rest blocks (Nat.lt_succ_of_lt hrest)),
        bind_of_ok (eatOperator_miss (isOperator_of_lt hrest))]
      rfl

theorem conditional_of_disjunction
    (h : grammar.ReadsAs (disjunction expression limit) 2 tokens value) :
    grammar.ReadsAs (conditional expression limit) 1 tokens value := by
  intro rest blocks hrest
  rw [conditional, bind_of_ok position_run, bind_of_ok (h rest blocks (Nat.lt_succ_of_lt hrest)),
    bind_of_ok (eatOperator_miss (isOperator_of_lt hrest))]
  rfl

variable (expression limit)

-- The tokens are read as the value at the level of a rank.
def ReadsAt (rank : Nat) (tokens : List Token) (value : Expr) : Prop :=
  match rank with
  | 0 | 1 => grammar.ReadsAs (conditional expression limit) 1 tokens value
  | 2 =>
      grammar.Opens (disjunction expression limit)
        (chain (oneOperator [("||", BoolOp.or)]) (conjunction expression limit) .logical)
        limit 2 tokens value
  | 3 =>
      grammar.Opens (conjunction expression limit)
        (chain (oneOperator [("&&", BoolOp.and)]) (equality expression limit) .logical)
        limit 3 tokens value
  | 4 =>
      grammar.Opens (equality expression limit)
        (chain (oneOperator equalityOps) (relation expression limit) comparison)
        limit 4 tokens value
  | 5 =>
      grammar.Opens (relation expression limit)
        (chain (oneOperator relationalOps) (sum expression limit) comparison)
        limit 5 tokens value
  | 6 | 7 | 8 | 9 | 10 =>
      grammar.Opens (sum expression limit)
        (chain (oneOperator additiveOps) (product expression limit) .binary)
        limit 10 tokens value
  | 11 =>
      grammar.Opens (product expression limit)
        (chain (oneOperator multiplicativeOps) (power expression limit limit) .binary)
        limit 11 tokens value
  | 12 =>
      ∀ rounds, tokens.length ≤ rounds →
        grammar.ReadsAs (power expression limit rounds) 12 tokens value
  | 13 =>
      ∀ rounds, tokens.length ≤ rounds →
        grammar.ReadsAs (unary expression limit rounds) 13 tokens value
  | _ =>
      grammar.Opens (suffixed expression limit) (suffixes expression limit .start) limit 14
        tokens value

variable {expression limit}

theorem ReadsAt.loosen {rank : Nat} (hstarts : grammar.Starts (rank + 1) tokens)
    (hlimit : tokens.length ≤ limit) (h : ReadsAt expression limit (rank + 1) tokens value) :
    ReadsAt expression limit rank tokens value := by
  have hstart : grammar.Starts 1 tokens := hstarts.mono (by omega)
  have hmore : ∀ rounds, tokens.length ≤ rounds → 0 < rounds := fun _ =>
    Nat.lt_of_lt_of_le hstart.length_pos
  match rank with
  | 0 => exact h
  | 1 => exact conditional_of_disjunction (chain_reads (by decide) h hlimit)
  | 2 => exact leftAssoc_opens hstart (chain_reads (by decide) h hlimit)
  | 3 => exact leftAssoc_opens hstart (chain_reads (by decide) h hlimit)
  | 4 => exact leftAssoc_opens hstart (chain_reads (by decide) h hlimit)
  | 5 => exact leftAssoc_opens hstart ((chain_reads (by decide) h hlimit).mono (by decide))
  | 6 | 7 | 8 | 9 => exact h
  | 10 => exact leftAssoc_opens hstart (chain_reads (by decide) h hlimit)
  | 11 => exact leftAssoc_opens hstart (h limit hlimit)
  | 12 => exact fun rounds hrounds => power_of_unary (h limit hlimit) (hmore rounds hrounds)
  | 13 => exact fun rounds hrounds => unary_of_suffixed hstarts h hlimit (hmore rounds hrounds)
  | _ + 14 => exact h

end Loosening

-- What the text of an expression may start with. An operator in front of it must not be made
-- longer.
def opensText (rank : Nat) (c : Char) : Bool :=
  c != '=' && (decide (rank ≤ 13) || (c != '+' && c != '-'))

abbrev frontEnd : FrontEnd where
  scanner := scanner
  grammar := grammar
  opens := opensText
  opens_mono {looser rank c} hle h := by
    simp only [opensText, Bool.and_eq_true, Bool.or_eq_true, decide_eq_true_eq] at h ⊢
    exact ⟨h.1, h.2.imp_left fun h => by omega⟩
  expression := expression
  ReadsAt limit := ReadsAt (expression limit) (limit + 1)
  mono hstarts hlimit := hstarts.descend (P := fun rank => ReadsAt _ _ rank _ _)
    fun _ hstarts h => h.loosen hstarts hlimit
  whole h := h

end Diglot.Braced
