import Diglot.Proofs.Parser.Agree

namespace Diglot.Braced

open Diglot.Parser

def isBrace (token : Token) : Bool := token.isOperator "\x7b" || token.isOperator "\x7d"

-- Tokens that close the braces that they open, and no others.
inductive Nested : List Token → Prop
  | nil : Nested []
  | single {token : Token} (h : isBrace token = false) : Nested [token]
  | append {tokens more : List Token} (h : Nested tokens) (hmore : Nested more) :
      Nested (tokens ++ more)
  | braces {opening closing : Token} {tokens : List Token}
      (hopening : opening.isOperator "\x7b" = true) (h : Nested tokens)
      (hclosing : closing.isOperator "\x7d" = true) : Nested (opening :: (tokens ++ [closing]))

-- How many braces are open behind a token, unless it closes one that is not open.
def braced (depth : Nat) (token : Token) : Option Nat :=
  if token.isOperator "\x7b" then some (depth + 1)
  else if token.isOperator "\x7d" then
    match depth with
    | 0 => none
    | outer + 1 => some outer
  else some depth

theorem braced_of_not_isBrace {token : Token} (h : isBrace token = false) (depth : Nat) :
    braced depth token = some depth := by
  simp only [isBrace, Bool.or_eq_false_iff] at h
  simp [braced, h]

theorem Nested.foldlM_braced {tokens : List Token} (h : Nested tokens) (depth : Nat) :
    tokens.foldlM braced depth = some depth := by
  induction h generalizing depth with
  | nil => rfl
  | single h => simp [braced_of_not_isBrace h]
  | append _ _ ih ihmore => simp [List.foldlM_append, ih, ihmore]
  | @braces opening closing tokens hopening _ hclosing ih =>
      have hnot : closing.isOperator "\x7b" = false := by
        simp only [Token.isOperator, Token.is, Bool.and_eq_true, beq_iff_eq] at hclosing
        simp [Token.isOperator, Token.is, hclosing]
      have hopen : braced depth opening = some (depth + 1) := by simp [braced, hopening]
      have hclose : braced (depth + 1) closing = some depth := by simp [braced, hnot, hclosing]
      simp [List.foldlM_cons, List.foldlM_append, hopen, ih, hclose]

section Readers

variable {α β ω : Type} {s : TokenStream} {p q : Parser α} {f : α → Parser β} {token : Token}
  {lexeme : String} {table : List (String × ω)} {kind : TokenKind}

-- What a reader reads from a stream closes the braces that it opens.
def Encloses (s : TokenStream) (p : Parser α) : Prop :=
  ∀ ⦃a t⦄, s.Ended → p s = .ok (a, t) →
    t.Ended ∧ ∃ passed, s.tokens = passed ++ t.tokens ∧ Nested passed

namespace Encloses

theorem bind (hp : Encloses s p) (hf : ∀ a t, Encloses t (f a)) : Encloses s (p >>= f) := by
  intro b t hs h
  obtain ⟨a, u, hfound, h⟩ := exists_of_bind_run h
  obtain ⟨hu, passed, hpassed, hnested⟩ := hp hs hfound
  obtain ⟨ht, more, hmore, hinner⟩ := hf a u hu h
  refine ⟨ht, passed ++ more, ?_, hnested.append hinner⟩
  rw [hpassed, hmore, List.append_assoc]

-- Giving a value that the stream has, without reading.
theorem get (f : TokenStream → α) : Encloses s (do return f (← MonadState.get)) := by
  intro a t hs h
  cases h
  exact ⟨hs, [], rfl, .nil⟩

theorem pure (a : α) : Encloses s (Pure.pure a) := get fun _ => a

theorem ite {c : Prop} [Decidable c] (hp : c → Encloses s p) (hq : ¬ c → Encloses s q) :
    Encloses s (if c then p else q) := by
  by_cases h : c
  · rw [if_pos h]
    exact hp h
  · rw [if_neg h]
    exact hq h

end Encloses

theorem unexpected_encloses (expected : String) : Encloses s (unexpected expected : Parser α) := by
  intro a t _ h
  cases h

theorem exhausted_encloses : Encloses s (exhausted : Parser α) := by
  intro a t _ h
  cases h

theorem current_encloses {f : Token → Parser β} (h : Encloses s (f s.current)) :
    Encloses s (current >>= f) := fun _ _ hs hfound => h hs hfound

theorem advance_encloses (h : isBrace s.current = false) : Encloses s advance := by
  intro token t hs hadvance
  refine ⟨hs.advance hadvance, ?_⟩
  rcases TokenStream.tokens_of_advance hs hadvance with ⟨-, heq⟩ | ⟨-, heq⟩
  · exact ⟨[], heq.symm, .nil⟩
  · exact ⟨[s.current], heq, .single h⟩

-- Whether a text is none of the two braces.
def isUnbraced (lexeme : String) : Bool := lexeme != "\x7b" && lexeme != "\x7d"

theorem isBrace_of_isOperator (hlexeme : isUnbraced lexeme = true)
    (h : token.isOperator lexeme = true) : isBrace token = false := by
  simp only [Token.isOperator, Token.is, Bool.and_eq_true, beq_iff_eq] at h
  simp only [isUnbraced, Bool.and_eq_true, bne_iff_ne] at hlexeme
  simp [isBrace, Token.isOperator, Token.is, h, hlexeme]

theorem isBrace_of_kind (h : token.kind ≠ .operator) : isBrace token = false := by
  simp [isBrace, Token.isOperator, Token.is, h]

-- Reads the current token, which is no operator, and gives a value.
theorem leaf_encloses (h : s.current.kind ≠ .operator) (a : α) :
    Encloses s (do
      let _ ← advance
      return a) :=
  (advance_encloses (isBrace_of_kind h)).bind fun _ _ => .pure a

theorem eatOperator_encloses (h : isUnbraced lexeme = true) : Encloses s (eatOperator lexeme) := by
  intro found t hs hfound
  obtain ⟨stands, u, hcheck, hfound⟩ := exists_of_bind_run hfound
  cases hcheck
  split at hfound
  · rename_i hoperator
    obtain ⟨token, u, hadvance, hfound⟩ := exists_of_bind_run hfound
    cases hfound
    exact advance_encloses (isBrace_of_isOperator h hoperator) hs hadvance
  · cases hfound
    exact ⟨hs, [], rfl, .nil⟩

-- An operator that may stand there, and one of two readers by whether it does.
theorem Encloses.test (h : isUnbraced lexeme = true) (hp : ∀ t, Encloses t p)
    (hq : ∀ t, Encloses t q) : Encloses s (do if ← eatOperator lexeme then p else q) :=
  (eatOperator_encloses h).bind fun _ t => .ite (fun _ => hp t) fun _ => hq t

theorem oneOperator_encloses (h : ∀ entry ∈ table, isUnbraced entry.1 = true) :
    Encloses s (oneOperator table) := by
  refine current_encloses ?_
  cases hfind : table.find? (fun entry => s.current.isOperator entry.1) with
  | none => exact .pure none
  | some entry =>
      have hoperator : s.current.isOperator entry.1 = true := by
        simpa using List.find?_some hfind
      have hbrace := isBrace_of_isOperator (h entry (List.mem_of_find?_eq_some hfind)) hoperator
      exact (advance_encloses hbrace).bind fun _ _ => .pure _

-- What is expected is the current token, and it is left behind.
theorem expect_reads (hkind : kind ≠ .eof) {lexeme : Option String} {t : TokenStream} (hs : s.Ended)
    (h : expect kind lexeme s = .ok (token, t)) :
    t.Ended ∧ s.tokens = s.current :: t.tokens ∧ s.current.kind = kind ∧
      lexeme.all (· == s.current.lexeme) = true := by
  obtain ⟨current, u, hcurrent, h⟩ := exists_of_bind_run h
  cases hcurrent
  split at h
  · rename_i hstands
    rw [Bool.and_eq_true, beq_iff_eq] at hstands
    refine ⟨hs.advance h, ?_, hstands⟩
    rcases TokenStream.tokens_of_advance hs h with ⟨heof, -⟩ | ⟨-, heq⟩
    · exact absurd (hstands.1.symm.trans heof) hkind
    · exact heq
  · split at h <;> cases h

theorem expectOperator_encloses (h : isUnbraced lexeme = true) :
    Encloses s (expectOperator lexeme) := by
  intro token t hs hfound
  obtain ⟨ht, heq, hkind, hlexeme⟩ := expect_reads (by decide) hs hfound
  have hoperator : s.current.isOperator lexeme = true := by
    rw [Option.all_some, beq_iff_eq] at hlexeme
    simp [Token.isOperator, Token.is, hkind, hlexeme]
  exact ⟨ht, _, heq, .single (isBrace_of_isOperator h hoperator)⟩

theorem expect_encloses (hkind : kind ≠ .eof ∧ kind ≠ .operator) (lexeme : Option String) :
    Encloses s (expect kind lexeme) := by
  intro token t hs hfound
  obtain ⟨ht, heq, hkind', -⟩ := expect_reads hkind.1 hs hfound
  exact ⟨ht, _, heq, .single (isBrace_of_kind (hkind' ▸ hkind.2))⟩

theorem identifier_encloses : Encloses s identifier :=
  (expect_encloses (by decide) none).bind fun _ _ => .pure _

variable {item : Parser α}

theorem separated_encloses (close : String) (hitem : ∀ s, Encloses s item) (limit : Nat) :
    ∀ s, Encloses s (separated close item limit) := by
  induction limit with
  | zero => exact fun _ => exhausted_encloses
  | succ limit ih =>
      refine fun s => (Encloses.get _).bind fun _ t => .ite (fun _ => .pure []) fun _ => ?_
      exact (hitem t).bind fun a u => .test (by decide) (fun v => (ih v).bind fun _ _ => .pure _)
        fun v => .pure [a]

theorem enclosed_encloses {close : String} (hclose : isUnbraced close = true)
    (hitem : ∀ s, Encloses s item) (limit : Nat) : Encloses s (enclosed close item limit) :=
  (separated_encloses close hitem limit s).bind fun _ _ =>
    (expectOperator_encloses hclose).bind fun _ _ => .pure _

-- Items between two braces, and what is done with them.
theorem braces_encloses {f : List α → Parser β} (hopening : s.current.isOperator "\x7b" = true)
    (hitem : ∀ s, Encloses s item) (limit : Nat) (hf : ∀ items t, Encloses t (f items)) :
    Encloses s (do
      let _ ← advance
      let items ← enclosed "\x7d" item limit
      f items) := by
  have hboth : Encloses s (do
      let _ ← advance
      enclosed "\x7d" item limit) := by
    intro items t hs h
    obtain ⟨opening, u, hadvance, h⟩ := exists_of_bind_run h
    obtain ⟨found, v, hseparated, h⟩ := exists_of_bind_run h
    obtain ⟨closing, w, hexpect, h⟩ := exists_of_bind_run h
    cases h
    obtain ⟨hv, passed, hpassed, hnested⟩ :=
      separated_encloses "\x7d" hitem limit u (hs.advance hadvance) hseparated
    obtain ⟨ht, hlast, hkind, hlexeme⟩ := expect_reads (by decide) hv hexpect
    have hclosing : v.current.isOperator "\x7d" = true := by
      rw [Option.all_some, beq_iff_eq] at hlexeme
      simp [Token.isOperator, Token.is, hkind, ← hlexeme]
    refine ⟨ht, s.current :: (passed ++ [v.current]), ?_, .braces hopening hnested hclosing⟩
    rcases TokenStream.tokens_of_advance hs hadvance with ⟨heof, -⟩ | ⟨-, heq⟩
    · simp [Token.isOperator, Token.is, heof] at hopening
    · rw [heq, hpassed, hlast]
      simp
  have hassoc : (do
      let _ ← advance
      let items ← enclosed "\x7d" item limit
      f items : Parser β) = (do
      let _ ← advance
      enclosed "\x7d" item limit) >>= f := (bind_assoc _ _ _).symm
  rw [hassoc]
  exact hboth.bind hf

theorem whilst_encloses {more : Parser (Option ω)} {item : ω → Parser α}
    (hmore : ∀ s, Encloses s more) (hitem : ∀ mark s, Encloses s (item mark)) (limit : Nat) :
    ∀ s, Encloses s (whilst more item limit) := by
  induction limit with
  | zero => exact fun _ => exhausted_encloses
  | succ limit ih =>
      refine fun s => (hmore s).bind fun mark t => ?_
      cases mark with
      | none => exact .pure []
      | some mark => exact (hitem mark t).bind fun _ u => (ih u).bind fun _ _ => .pure _

theorem leftAssoc_encloses {operand : Parser Expr} {node : ω → Expr → Expr → Pos → Expr}
    (htable : ∀ entry ∈ table, isUnbraced entry.1 = true) (hoperand : ∀ s, Encloses s operand)
    (limit : Nat) : ∀ s, Encloses s (leftAssoc (oneOperator table) operand node limit) := by
  have hchain : ∀ pos limit left s,
      Encloses s (chainLeft (oneOperator table) operand (node · · · pos) limit left) := by
    intro pos limit
    induction limit with
    | zero => exact fun _ _ => exhausted_encloses
    | succ limit ih =>
        refine fun left s => (oneOperator_encloses htable).bind fun op t => ?_
        cases op with
        | none => exact .pure left
        | some op => exact (hoperand t).bind fun right u => ih _ u
  exact fun s => (Encloses.get _).bind fun pos t => (hoperand t).bind fun first u =>
    hchain pos limit first u

end Readers

section Levels

variable {expression : Parser Expr} {limit : Nat} {s : TokenStream}

theorem propertyName_encloses : Encloses s propertyName := by
  refine current_encloses (.ite (fun hkind => leaf_encloses ?_ _) fun _ => unexpected_encloses _)
  intro hoperator
  simp [hoperator] at hkind

variable (hexpression : ∀ s, Encloses s expression)

include hexpression

theorem propertyValue_encloses (key : Token) : Encloses s (propertyValue expression key) :=
  .test (by decide) hexpression fun _ => .ite (fun _ => .pure _) fun _ => unexpected_encloses _

theorem property_encloses : Encloses s (property expression) := by
  refine current_encloses ?_
  have hread : ∀ key : DictKey Expr, s.current.kind ≠ .operator → Encloses s (do
      let _ ← advance
      return ⟨key, ← propertyValue expression s.current⟩ : Parser (DictEntry Expr)) :=
    fun key hkind => (advance_encloses (isBrace_of_kind hkind)).bind fun _ t =>
      (propertyValue_encloses hexpression s.current).bind fun _ _ => .pure _
  split
  case h_5 =>
    exact .test (by decide) (fun t => (hexpression t).bind fun _ _ =>
      (expectOperator_encloses (by decide)).bind fun _ _ =>
        (propertyValue_encloses hexpression s.current).bind fun _ _ => .pure _)
      fun _ => unexpected_encloses _
  all_goals
    rename_i hkind
    exact hread _ (by simp [hkind])

theorem construction_encloses : Encloses s (construction expression limit) := by
  refine (Encloses.get _).bind fun pos t => (expect_encloses (by decide) _).bind fun _ u =>
    identifier_encloses.bind fun name v => ?_
  have hmore : ∀ s, Encloses s (do if ← eatOperator "." then return some () else return none) :=
    fun s => .test (by decide) (fun _ => .pure _) fun _ => .pure _
  exact (whilst_encloses hmore (fun _ _ => propertyName_encloses) limit v).bind fun path w =>
    .test (by decide) (fun x => (enclosed_encloses (by decide) hexpression limit).bind
      fun _ _ => .pure _) fun x => .pure _

theorem primary_encloses : Encloses s (primary expression limit) := by
  refine current_encloses ?_
  have hopens : ∀ {lexeme : String}, s.current.kind = .operator → s.current.lexeme = lexeme →
      s.current.isOperator lexeme = true := by
    intro lexeme hkind hlexeme
    simp [Token.isOperator, Token.is, hkind, hlexeme]
  split
  case h_5 =>
    rename_i hkind
    split
    case h_7 => exact construction_encloses hexpression
    case h_8 => exact unexpected_encloses _
    all_goals exact leaf_encloses (by simp [hkind]) _
  case h_6 =>
    rename_i hkind
    split
    · rename_i hlexeme
      have hbrace := isBrace_of_isOperator (by decide) (hopens hkind hlexeme)
      exact (advance_encloses hbrace).bind fun _ t => (hexpression t).bind fun _ _ =>
        (expectOperator_encloses (by decide)).bind fun _ _ => .pure _
    · rename_i hlexeme
      have hbrace := isBrace_of_isOperator (by decide) (hopens hkind hlexeme)
      exact (advance_encloses hbrace).bind fun _ t =>
        (enclosed_encloses (by decide) hexpression limit).bind fun _ _ => .pure _
    · rename_i hlexeme
      exact braces_encloses (hopens hkind hlexeme) (fun _ => property_encloses hexpression) limit
        fun _ _ => .pure _
    · exact unexpected_encloses _
  case h_7 => exact unexpected_encloses _
  all_goals
    rename_i hkind
    exact leaf_encloses (by simp [hkind]) _

theorem suffixes_encloses (pos : Pos) (rounds : Nat) :
    ∀ object s, Encloses s (suffixes expression limit pos rounds object) := by
  induction rounds with
  | zero => exact fun _ _ => exhausted_encloses
  | succ rounds ih =>
      exact fun object s => .test (by decide) (fun t => propertyName_encloses.bind fun _ u => ih _ u)
        fun t => .test (by decide) (fun u => (hexpression u).bind fun _ v =>
          (expectOperator_encloses (by decide)).bind fun _ w => ih _ w)
        fun u => .test (by decide) (fun v => (enclosed_encloses (by decide) hexpression limit).bind
          fun _ w => ih _ w) fun v => .pure object

theorem suffixed_encloses : ∀ s, Encloses s (suffixed expression limit) := fun _ =>
  (Encloses.get _).bind fun pos _ => (primary_encloses hexpression).bind fun object u =>
    suffixes_encloses hexpression pos limit object u

theorem unary_encloses (rounds : Nat) : ∀ s, Encloses s (unary expression limit rounds) := by
  induction rounds with
  | zero => exact fun _ => exhausted_encloses
  | succ rounds ih =>
      refine fun s => (Encloses.get _).bind fun pos t =>
        (oneOperator_encloses (by decide)).bind fun found u => ?_
      cases found with
      | none => exact suffixed_encloses hexpression u
      | some op => exact (ih u).bind fun _ _ => .pure _

theorem power_encloses (rounds : Nat) : ∀ s, Encloses s (power expression limit rounds) := by
  induction rounds with
  | zero => exact fun _ => exhausted_encloses
  | succ rounds ih =>
      exact fun s => (Encloses.get _).bind fun pos t => (unary_encloses hexpression limit t).bind
        fun base u => .test (by decide) (fun v => (ih v).bind fun _ _ => .pure _) fun _ => .pure base

theorem disjunction_encloses : ∀ s, Encloses s (disjunction expression limit) := by
  have hproduct : ∀ s, Encloses s (product expression limit) :=
    leftAssoc_encloses (by decide) (power_encloses hexpression limit) limit
  have hsum : ∀ s, Encloses s (sum expression limit) := leftAssoc_encloses (by decide) hproduct limit
  have hrelation : ∀ s, Encloses s (relation expression limit) :=
    leftAssoc_encloses (by decide) hsum limit
  have hequality : ∀ s, Encloses s (equality expression limit) :=
    leftAssoc_encloses (by decide) hrelation limit
  have hconjunction : ∀ s, Encloses s (conjunction expression limit) :=
    leftAssoc_encloses (by decide) hequality limit
  exact leftAssoc_encloses (by decide) hconjunction limit

theorem conditional_encloses : ∀ s, Encloses s (conditional expression limit) := fun _ =>
  (Encloses.get _).bind fun pos t => (disjunction_encloses hexpression t).bind fun test _ =>
    .test (by decide) (fun v => (hexpression v).bind fun _ _ =>
      (expectOperator_encloses (by decide)).bind fun _ x => (hexpression x).bind fun _ _ => .pure _)
      fun _ => .pure test

end Levels

theorem expression_encloses (limit : Nat) : ∀ s, Encloses s (expression limit) := by
  induction limit with
  | zero => exact fun _ => exhausted_encloses
  | succ limit ih => exact conditional_encloses ih

end Diglot.Braced
