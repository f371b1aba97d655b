import Diglot.Proofs.Parser.Ahead

namespace Diglot

open Diglot.Parser TokenStream
open Token (op kw)

-- How the tokens of a notation divide its expressions. The levels of the grammar are counted from
-- loose to tight.
structure Grammar where
  -- The level at which a token carries on the expression in front of it, or zero.
  binds : TokenKind → String → Nat
  -- Whether an expression of a level may start with a token.
  begins : Nat → TokenKind → String → Bool
  begins_mono : ∀ {looser rank kind lexeme}, looser ≤ rank → begins rank kind lexeme = true →
    begins looser kind lexeme = true

namespace Grammar

variable (g : Grammar) {token : Token} {lexeme : String}

def level (token : Token) : Nat := g.binds token.kind token.lexeme

-- Tokens without places that start as an expression of a level may.
def Starts (rank : Nat) (tokens : List Token) : Prop :=
  ∃ first more, tokens = first :: more ∧ first.pos = .start ∧
    g.begins rank first.kind first.lexeme = true

-- `p` reads some tokens as an expression, in front of all tokens that bind less tightly.
def ReadsAs (p : Parser Expr) (rank : Nat) (tokens : List Token) (value : Expr) : Prop :=
  ∀ rest blocks, g.level (ahead rest blocks).current < rank →
    p (ahead (tokens ++ rest) blocks) = .ok (value, ahead rest blocks)

-- `p` reads some tokens as an expression and goes on with `loop`, in front of all tokens that do
-- not bind more tightly.
def Opens (p : Parser Expr) (loop : Nat → Expr → Parser Expr) (limit rank : Nat)
    (tokens : List Token) (value : Expr) : Prop :=
  ∀ rest blocks, g.level (ahead rest blocks).current ≤ rank →
    ∃ rounds, limit < rounds + tokens.length ∧
      p (ahead (tokens ++ rest) blocks) = loop rounds value (ahead rest blocks)

-- `expression` reads some tokens as a whole expression, as they stand in brackets.
structure Whole (expression : Parser Expr) (tokens : List Token) (value : Expr) : Prop where
  starts : g.Starts 1 tokens
  reads : g.ReadsAs expression 1 tokens value

variable {g}

theorem isOperator_of_lt (h : g.level token < g.level (op lexeme)) :
    token.isOperator lexeme = false := by
  apply Bool.eq_false_iff.mpr
  intro hop
  obtain ⟨kind, found, pos⟩ := token
  simp only [Token.isOperator, Token.is, Bool.and_eq_true, beq_iff_eq] at hop
  obtain ⟨rfl, rfl⟩ := hop
  exact Nat.lt_irrefl _ h

theorem isKeyword_of_lt (h : g.level token < g.level (kw lexeme)) :
    token.isKeyword lexeme = false := by
  apply Bool.eq_false_iff.mpr
  intro hkw
  obtain ⟨kind, found, pos⟩ := token
  simp only [Token.isKeyword, Token.is, Bool.and_eq_true, beq_iff_eq] at hkw
  obtain ⟨rfl, rfl⟩ := hkw
  exact Nat.lt_irrefl _ h

-- An operator of a table is not found in front of what binds less tightly than the table does.
theorem oneOperator_of_lt {ω : Type} {table : List (String × ω)} {rank : Nat}
    (htable : ∀ entry ∈ table, g.level (op entry.1) = rank) {s : TokenStream}
    (h : g.level s.current < rank) : oneOperator table s = .ok (none, s) :=
  oneOperator_miss fun entry hentry => isOperator_of_lt (by rwa [htable entry hentry])

section Starts

variable {rank looser : Nat} {tokens more : List Token} {blocks : Blocks}
  {lexeme : String}

theorem Starts.mono (h : g.Starts rank tokens) (hle : looser ≤ rank) : g.Starts looser tokens := by
  obtain ⟨first, rest, rfl, hpos, hbegins⟩ := h
  exact ⟨first, rest, rfl, hpos, g.begins_mono hle hbegins⟩

-- What holds at a level holds at the looser ones, if it does at the next one each time.
theorem Starts.descend {P : Nat → Prop} (h : g.Starts rank tokens)
    (hloosen : ∀ rank, g.Starts (rank + 1) tokens → P (rank + 1) → P rank) (hrank : P rank)
    (hle : looser ≤ rank) : P looser := by
  induction rank with
  | zero => exact Nat.le_zero.mp hle ▸ hrank
  | succ rank ih =>
      rcases Nat.lt_or_eq_of_le hle with hlt | rfl
      · exact ih (h.mono (Nat.le_succ rank)) (hloosen rank h hrank) (Nat.le_of_lt_succ hlt)
      · exact hrank

theorem Starts.append (h : g.Starts rank tokens) (hle : looser ≤ rank) :
    g.Starts looser (tokens ++ more) := by
  obtain ⟨first, rest, rfl, hpos, hbegins⟩ := h
  exact ⟨first, rest ++ more, rfl, hpos, g.begins_mono hle hbegins⟩

theorem Starts.pos (h : g.Starts rank tokens) :
    (ahead (tokens ++ more) blocks).current.pos = .start := by
  obtain ⟨first, rest, rfl, hpos, -⟩ := h
  exact hpos

theorem Starts.length_pos (h : g.Starts rank tokens) : 0 < tokens.length := by
  obtain ⟨first, rest, rfl, -⟩ := h
  exact Nat.zero_lt_succ _

theorem Starts.isOperator_eq_false (h : g.Starts rank tokens)
    (hlexeme : g.begins rank .operator lexeme = false) :
    (ahead (tokens ++ more) blocks).current.isOperator lexeme = false := by
  obtain ⟨⟨kind, found, pos⟩, rest, rfl, -, hbegins⟩ := h
  apply Bool.eq_false_iff.mpr
  intro hop
  simp only [List.cons_append, current_ahead_cons, Token.isOperator, Token.is, Bool.and_eq_true,
    beq_iff_eq] at hop hbegins
  obtain ⟨rfl, rfl⟩ := hop
  simp [hbegins] at hlexeme

theorem Starts.isKeyword_eq_false (h : g.Starts rank tokens)
    (hlexeme : g.begins rank .keyword lexeme = false) :
    (ahead (tokens ++ more) blocks).current.isKeyword lexeme = false := by
  obtain ⟨⟨kind, found, pos⟩, rest, rfl, -, hbegins⟩ := h
  apply Bool.eq_false_iff.mpr
  intro hkw
  simp only [List.cons_append, current_ahead_cons, Token.isKeyword, Token.is, Bool.and_eq_true,
    beq_iff_eq] at hkw hbegins
  obtain ⟨rfl, rfl⟩ := hkw
  simp [hbegins] at hlexeme

end Starts

section Levels

variable {p : Parser Expr} {loop : Nat → Expr → Parser Expr} {limit rank : Nat}
  {tokens : List Token} {value : Expr} {first : Token}

theorem ReadsAs.before (h : g.ReadsAs p rank tokens value) {next : Token}
    (hnext : g.level next < rank) (rest : List Token) (blocks : Blocks) :
    p (ahead (tokens ++ next :: rest) blocks) = .ok (value, ahead (next :: rest) blocks) :=
  h (next :: rest) blocks hnext

theorem ReadsAs.mono {looser : Nat} (h : g.ReadsAs p rank tokens value) (hle : looser ≤ rank) :
    g.ReadsAs p looser tokens value :=
  fun rest blocks hrest => h rest blocks (Nat.lt_of_lt_of_le hrest hle)

-- The loop of a level ends in front of what binds less tightly.
theorem Opens.readsAs (h : g.Opens p loop limit rank tokens value) (hlimit : tokens.length ≤ limit)
    (hstop : ∀ rest blocks, g.level (ahead rest blocks).current < rank → ∀ rounds found,
      loop (rounds + 1) found (ahead rest blocks) = .ok (found, ahead rest blocks)) :
    g.ReadsAs p rank tokens value := by
  intro rest blocks hrest
  obtain ⟨rounds, hrounds, hread⟩ := h rest blocks (Nat.le_of_lt hrest)
  obtain ⟨rounds, rfl⟩ : ∃ fewer, rounds = fewer + 1 := ⟨rounds - 1, by omega⟩
  rw [hread, hstop rest blocks hrest]

-- One round more of the loop.
theorem Opens.extend {more : List Token} {found : Expr} (h : g.Opens p loop limit rank tokens value)
    (hfirst : g.level first ≤ rank)
    (hstep : ∀ rounds rest blocks, g.level (ahead rest blocks).current ≤ rank →
      loop (rounds + 1) value (ahead (first :: more ++ rest) blocks) =
        loop rounds found (ahead rest blocks)) (hlimit : tokens.length < limit) :
    g.Opens p loop limit rank (tokens ++ first :: more) found := by
  intro rest blocks hrest
  obtain ⟨rounds, hrounds, hread⟩ := h (first :: more ++ rest) blocks hfirst
  obtain ⟨rounds, rfl⟩ : ∃ fewer, rounds = fewer + 1 := ⟨rounds - 1, by omega⟩
  refine ⟨rounds, ?_, ?_⟩
  · rw [List.length_append, List.length_cons]
    omega
  · rw [List.append_assoc, hread, hstep rounds rest blocks hrest]

variable {ω : Type} {operator? : Parser (Option ω)} {operand : Parser Expr}
  {node : ω → Expr → Expr → Pos → Expr}

-- The loop of a left-associative level, behind what has been read of it.
abbrev chain (operator? : Parser (Option ω)) (operand : Parser Expr)
    (node : ω → Expr → Expr → Pos → Expr) (rounds : Nat) (left : Expr) : Parser Expr :=
  chainLeft operator? operand (fun op left right => node op left right .start) rounds left

theorem leftAssoc_opens (hstarts : g.Starts 1 tokens)
    (h : g.ReadsAs operand (rank + 1) tokens value) :
    g.Opens (leftAssoc operator? operand node limit) (chain operator? operand node) limit rank
      tokens value := by
  intro rest blocks hrest
  refine ⟨limit, Nat.lt_add_of_pos_right hstarts.length_pos, ?_⟩
  rw [leftAssoc_run (h rest blocks (Nat.lt_succ_of_le hrest)), hstarts.pos]

-- An operand behind an operator of its level makes the chain longer.
theorem Opens.step {op : ω} {right : List Token} {other : Expr}
    (h : g.Opens p (chain operator? operand node) limit rank tokens value)
    (hop : ∀ rest blocks, operator? (ahead (first :: rest) blocks) = .ok (some op, ahead rest blocks))
    (hfirst : g.level first = rank) (hright : g.ReadsAs operand (rank + 1) right other)
    (hlimit : tokens.length < limit) :
    g.Opens p (chain operator? operand node) limit rank (tokens ++ first :: right)
      (node op value other .start) :=
  h.extend (Nat.le_of_eq hfirst)
    (fun _ rest blocks hrest =>
      chainLeft_step (hop _ _) (hright rest blocks (Nat.lt_succ_of_le hrest)) _ _)
    hlimit

-- A left-associative level ends in front of what binds less tightly than its operators.
theorem chain_reads {table : List (String × ω)}
    (htable : ∀ entry ∈ table, g.level (.op entry.1) = rank)
    (h : g.Opens p (chain (oneOperator table) operand node) limit rank tokens value)
    (hlimit : tokens.length ≤ limit) : g.ReadsAs p rank tokens value :=
  h.readsAs hlimit fun _ _ hrest => chainLeft_stop (oneOperator_of_lt htable hrest)

end Levels

section Whole

variable {expression : Parser Expr} {tokens : List Token} {value : Expr}

theorem Whole.run (h : g.Whole expression tokens value) (next : String)
    (hnext : g.level (op next) = 0) (rest : List Token) (blocks : Blocks) :
    expression (ahead (tokens ++ op next :: rest) blocks) =
      .ok (value, ahead (op next :: rest) blocks) :=
  h.reads.before (by omega) rest blocks

theorem Whole.isOperator_eq_false (h : g.Whole expression tokens value) (lexeme : String)
    (hlexeme : g.begins 1 .operator lexeme = false) (more : List Token)
    (blocks : Blocks) :
    (ahead (tokens ++ more) blocks).current.isOperator lexeme = false :=
  h.starts.isOperator_eq_false hlexeme

-- Whether an operator divides or closes what stands in brackets.
def Closes (g : Grammar) (lexeme : String) : Prop :=
  g.level (op lexeme) = 0 ∧ g.begins 1 .operator lexeme = false

-- Expressions with commas between them are read one by one.
theorem enclosed_wholes {π : Type} {parts : List π} {spelled : π → List Token} {meant : π → Expr}
    (close : String) (hcomma : close ≠ "," ∧ g.level (op ",") = 0) (hclose : g.Closes close)
    (hparts : ∀ part ∈ parts, g.Whole expression (spelled part) (meant part)) {limit : Nat}
    (hlimit : parts.length < limit) (rest : List Token) (blocks : Blocks) :
    enclosed close expression limit (ahead (commas (parts.map spelled) ++ op close :: rest) blocks) =
      .ok (parts.map meant, ahead rest blocks) := by
  have hlevel : ∀ next ∈ [",", close], g.level (op next) = 0 := by
    intro next hnext
    rcases mem_pair.mp hnext with rfl | rfl
    · exact hcomma.2
    · exact hclose.1
  exact enclosed_run hcomma.1 rest
    (fun part hpart next hnext rest => (hparts part hpart).run next (hlevel next hnext) rest blocks)
    (fun part hpart rest => (hparts part hpart).isOperator_eq_false close hclose.2 rest blocks)
    hlimit

end Whole

end Grammar

end Diglot
