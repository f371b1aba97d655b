import Diglot.Proofs.Parser.Grammar

namespace Diglot.Parser

open TokenStream
open Token (op kw word)

variable {α : Type} {token : Token} {tokens : List Token} {blocks : Blocks}
  {s : TokenStream}

section Skipping

theorem dropWhile_of_current {p : Token → Bool} (h : p s.current = false) : s.dropWhile p = s := by
  obtain ⟨current, upcoming, blocks⟩ := s
  cases upcoming with
  | nil => rfl
  | cons next rest => simp_all [TokenStream.dropWhile, dropTokens]

theorem skipNewlines_run (h : s.current.kind ≠ .newline) : skipNewlines s = .ok ((), s) := by
  have hsame : s.dropWhile (·.kind == .newline) = s := dropWhile_of_current (by simpa using h)
  change Except.ok ((), s.dropWhile (·.kind == .newline)) = _
  rw [hsame]

theorem skipSemicolons_run (h : s.current.isOperator ";" = false) :
    skipSemicolons s = .ok ((), s) := by
  have hsame : s.dropWhile (·.isOperator ";") = s := dropWhile_of_current h
  change Except.ok ((), s.dropWhile (·.isOperator ";")) = _
  rw [hsame]

end Skipping

section Following

variable {keywords : List String} {stops : Token → Bool} {rest : List Token}

-- Whether a token is a keyword that carries on the statement in front of it, with a further block.
def carriesOn (keywords : List String) (token : Token) : Bool := keywords.any (token.isKeyword ·)

-- Whether a statement may start with a token. What `stops` names is skipped in front of a statement
-- or ends a block.
def leads (keywords : List String) (stops : Token → Bool) (token : Token) : Bool :=
  !carriesOn keywords token && !stops token

-- What may follow a statement.
def Apart (keywords : List String) (rest : List Token) : Prop :=
  rest.head?.any (carriesOn keywords) = false

theorem Apart.isKeyword_eq_false (h : Apart keywords rest) {keyword : String}
    (hkeyword : keyword ∈ keywords) : (ahead rest blocks).current.isKeyword keyword = false := by
  cases rest with
  | nil => rfl
  | cons first rest =>
      simp only [Apart, carriesOn, List.head?_cons, Option.any_some, List.any_eq_false,
        Bool.not_eq_true] at h
      exact h keyword hkeyword

theorem exists_of_leads (h : tokens.head?.any (leads keywords stops) = true) :
    ∃ first more, tokens = first :: more ∧ carriesOn keywords first = false ∧
      stops first = false := by
  cases tokens with
  | nil => simp at h
  | cons first more => exact ⟨first, more, rfl, by simpa [leads] using h⟩

theorem apart_of_leads (h : tokens.head?.any (leads keywords stops) = true) (rest : List Token) :
    Apart keywords (tokens ++ rest) := by
  obtain ⟨first, more, rfl, hcarries, -⟩ := exists_of_leads h
  exact hcarries

theorem isAtEnd_of_leads (hend : ∀ token : Token, token.kind = .eof → stops token = true)
    (h : tokens.head?.any (leads keywords stops) = true) :
    (ahead (tokens ++ rest) blocks).isAtEnd = false := by
  obtain ⟨first, more, rfl, -, hstops⟩ := exists_of_leads h
  have hkind : first.kind ≠ .eof := fun hkind => by simp [hend first hkind] at hstops
  simpa [TokenStream.isAtEnd, ahead] using hkind

end Following

section Repeating

variable {skip : Parser Unit} {stop : Parser Bool} {item : Parser α} {t u : TokenStream}
  {limit : Nat}

theorem repeated_stop (hskip : skip s = .ok ((), t)) (hstop : stop t = .ok (true, u)) (limit : Nat) :
    repeated skip stop item (limit + 1) s = .ok ([], u) := by
  rw [repeated, bind_of_ok hskip, bind_of_ok hstop]
  rfl

theorem repeated_step {first : α} {rest : List α} {v : TokenStream} (hskip : skip s = .ok ((), s))
    (hstop : stop s = .ok (false, s)) (hfirst : item s = .ok (first, t))
    (hrest : repeated skip stop item limit t = .ok (rest, v)) :
    repeated skip stop item (limit + 1) s = .ok (first :: rest, v) := by
  rw [repeated, bind_of_ok hskip, test_of_false hstop, bind_of_ok hfirst, bind_of_ok hrest,
    pure_run]

-- Items are read one by one up to where `stop` says so, if each is read in front of all that may
-- follow it. `apart` says what may.
theorem repeated_run {π : Type} {apart : List Token → Prop} {parts : List π}
    {spelled : π → List Token} {meant : π → α} {rest : List Token} (hrest : apart rest)
    (hskip : skip (ahead rest blocks) = .ok ((), ahead rest blocks))
    (hstop : stop (ahead rest blocks) = .ok (true, u))
    (hopen : ∀ part ∈ parts, ∀ more : List Token, apart (spelled part ++ more) ∧
      skip (ahead (spelled part ++ more) blocks) = .ok ((), ahead (spelled part ++ more) blocks) ∧
        stop (ahead (spelled part ++ more) blocks) =
          .ok (false, ahead (spelled part ++ more) blocks))
    (hitem : ∀ part ∈ parts, ∀ more : List Token, apart more →
      item (ahead (spelled part ++ more) blocks) = .ok (meant part, ahead more blocks))
    (hlimit : parts.length < limit) :
    repeated skip stop item limit (ahead (parts.flatMap spelled ++ rest) blocks) =
      .ok (parts.map meant, u) := by
  induction parts generalizing limit with
  | nil =>
      obtain ⟨limit, rfl⟩ : ∃ less, limit = less + 1 := ⟨limit - 1, by simp at hlimit; omega⟩
      exact repeated_stop hskip hstop limit
  | cons first others ih =>
      obtain ⟨limit, rfl⟩ : ∃ less, limit = less + 1 := ⟨limit - 1, by simp at hlimit; omega⟩
      obtain ⟨hfirst, hothers⟩ := List.forall_mem_cons.mp hopen
      obtain ⟨hread, hreads⟩ := List.forall_mem_cons.mp hitem
      have hmore := ih hothers hreads (by simpa using hlimit)
      have hnext : apart (others.flatMap spelled ++ rest) := by
        cases others with
        | nil => exact hrest
        | cons second others =>
            rw [List.flatMap_cons, List.append_assoc]
            exact (hothers second (by simp) _).1
      rw [List.flatMap_cons, List.append_assoc]
      exact repeated_step (hfirst _).2.1 (hfirst _).2.2 (hread _ hnext) hmore

end Repeating

section Lengths

variable {π : Type} {parts : List π} {spelled : π → List Token}

theorem length_le_length_flatMap {part : π} (h : part ∈ parts) (spelled : π → List Token) :
    (spelled part).length ≤ (parts.flatMap spelled).length := by
  have hmem : spelled part ∈ parts.map spelled := List.mem_map_of_mem h
  rw [List.flatMap_def]
  exact (List.sublist_flatten_of_mem hmem).length_le

-- There are no more items than tokens if no item is empty.
theorem length_le_length_tokens (h : ∀ part ∈ parts, 0 < (spelled part).length) :
    parts.length ≤ (parts.flatMap spelled).length := by
  induction parts with
  | nil => exact Nat.le_refl _
  | cons first rest ih =>
      obtain ⟨hfirst, hrest⟩ := List.forall_mem_cons.mp h
      have := ih hrest
      rw [List.flatMap_cons, List.length_append, List.length_cons]
      omega

end Lengths

section Assigning

variable {g : Grammar} {expression : Parser Expr} {π : Type} {spelled : π → List Token}
  {meant : π → Expr} {target : Expr} {targets : List π} {value : π} {rest : List Token}
  {limit : Nat}

theorem checkAssignable_run (h : target.isAssignable = true) :
    checkAssignable target s = .ok ((), s) := by
  simp [checkAssignable, h, pure_run]

theorem checkTargets_run {targets : List Expr} (h : ∀ target ∈ targets, target.isAssignable = true) :
    targets.forM checkAssignable s = .ok ((), s) := by
  induction targets with
  | nil => rfl
  | cons first rest ih =>
      obtain ⟨hfirst, hrest⟩ := List.forall_mem_cons.mp h
      rw [List.forM_eq_forM, List.forM_cons, bind_of_ok (checkAssignable_run hfirst)]
      exact ih hrest

-- The tokens of further targets and of the value, each behind its `=`.
def assignedTokens (spelled : π → List Token) (parts : List π) : List Token :=
  parts.flatMap fun part => op "=" :: spelled part

theorem length_assignedTokens_le (spelled : π → List Token) (parts : List π) :
    parts.length ≤ (assignedTokens spelled parts).length :=
  length_le_length_tokens fun _ _ => Nat.zero_lt_succ _

-- The rest of a chain of assignments is read up to what neither carries on its value nor assigns
-- to it.
theorem assignedTo_run (hequals : g.level (op "=") = 0)
    (h : ∀ part ∈ targets ++ [value], g.Whole expression (spelled part) (meant part))
    (hlevel : g.level (ahead rest blocks).current = 0)
    (hrest : (ahead rest blocks).current.isOperator "=" = false) (hlimit : targets.length < limit) :
    assignedTo expression limit (ahead (assignedTokens spelled (targets ++ [value]) ++ rest) blocks) =
      .ok ((targets.map meant, meant value), ahead rest blocks) := by
  induction targets generalizing limit with
  | nil =>
      obtain ⟨limit, rfl⟩ : ∃ less, limit = less + 1 := ⟨limit - 1, by simp at hlimit; omega⟩
      have hread := (h value (by simp)).reads rest blocks (by omega)
      simp only [List.nil_append, assignedTokens, List.flatMap_cons, List.flatMap_nil,
        List.append_nil, List.cons_append]
      rw [assignedTo, bind_of_ok (advance_op "="), bind_of_ok hread,
        bind_of_ok (checkOperator_run "="), hrest]
      rfl
  | cons first others ih =>
      obtain ⟨limit, rfl⟩ : ∃ less, limit = less + 1 := ⟨limit - 1, by simp at hlimit; omega⟩
      obtain ⟨hfirst, hothers⟩ := List.forall_mem_cons.mp h
      have hmore := ih hothers (by simpa using hlimit)
      -- Behind each target but the value there is a further `=`.
      obtain ⟨more, hnext⟩ : ∃ more,
          assignedTokens spelled (others ++ [value]) ++ rest = op "=" :: more := by
        cases others <;> exact ⟨_, rfl⟩
      have hlower : g.level (op "=") < 1 := by omega
      have hread := hfirst.reads.before hlower more blocks
      have htokens : assignedTokens spelled (first :: others ++ [value]) ++ rest =
          op "=" :: (spelled first ++ op "=" :: more) := by
        rw [← hnext]
        simp [assignedTokens]
      rw [hnext] at hmore
      rw [htokens, assignedTo, bind_of_ok (advance_op "="), bind_of_ok hread,
        bind_of_ok (checkOperator_run "=")]
      simp only [current_ahead_cons, Token.isOperator_op, beq_self_eq_true, if_true]
      rw [bind_of_ok hmore]
      rfl

-- A chain of assignments is read if all its targets may be assigned to.
theorem assignment_run (hequals : g.level (op "=") = 0) {first : Expr}
    (hfirst : first.isAssignable = true)
    (htargets : ∀ part ∈ targets, (meant part).isAssignable = true)
    (h : ∀ part ∈ targets ++ [value], g.Whole expression (spelled part) (meant part))
    (hlevel : g.level (ahead rest blocks).current = 0)
    (hrest : (ahead rest blocks).current.isOperator "=" = false) (hlimit : targets.length < limit)
    (pos : Pos) :
    assignment expression limit first pos
        (ahead (assignedTokens spelled (targets ++ [value]) ++ rest) blocks) =
      .ok (.assign (first :: targets.map meant) (some (meant value)) none pos,
        ahead rest blocks) := by
  have hcheck : ∀ target ∈ first :: targets.map meant, target.isAssignable = true := by
    simpa [hfirst] using htargets
  rw [assignment, bind_of_ok (assignedTo_run hequals h hlevel hrest hlimit)]
  exact bind_of_ok (checkTargets_run hcheck)

theorem augmented_run {value : Expr} (htarget : target.isAssignable = true) (op : BinaryOp)
    (lexeme : String) (h : g.Whole expression tokens value)
    (hlevel : g.level (ahead rest blocks).current = 0) (pos : Pos) :
    augmented expression op target pos (ahead (.op lexeme :: (tokens ++ rest)) blocks) =
      .ok (.augAssign target op value pos, ahead rest blocks) := by
  rw [augmented, bind_of_ok (checkAssignable_run htarget), bind_of_ok (advance_op lexeme),
    bind_of_ok (h.reads rest blocks (by omega))]
  rfl

end Assigning

end Diglot.Parser
