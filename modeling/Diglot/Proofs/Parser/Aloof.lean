import Diglot.Proofs.Parser.InStep

namespace Diglot.Parser

open Bond

variable {α ω : Type} [Placed α] [Placed ω]

theorem same_advance (s : TokenStream) :
    Same Eq Bare Bare s.advance (placeless s).advance := by
  rw [advance_placeless]
  cases s.advance with
  | error failure => rfl
  | ok found => exact ⟨rfl, rfl⟩

-- Two runs, the second on the tokens of the first without their places.
def sameTokens : Bond where
  tight := Bare
  loose := Bare
  blames := Eq
  blames_refl _ := rfl
  loose_of_tight := id
  place := by simp [placeless]
  kind := by simp [placeless]
  lexeme := by simp [placeless]
  next := by
    rintro s _ rfl _ kind _ lexeme
    unfold TokenStream.peek
    cases hs : s.upcoming <;> simp [placeless, hs, Token.is]
  depth := by simp [placeless, TokenStream.depth]
  blames_unexpected := by
    rintro s _ rfl expected
    rw [unexpected_placeless]
    rfl
  moves := by
    rintro s _ rfl _ _
    exact (same_advance s).mono id fun _ => trivial
  feeds := by
    rintro s _ rfl _
    exact (same_advance s).mono id fun _ => trivial
  skips := by
    rintro s _ rfl
    exact dropWhile_placeless (fun _ => rfl) s

-- Two readers are alike if the second does without places what the first does with them.
abbrev Alike (p q : Parser α) : Prop := sameTokens.Steady p q

-- A reader is aloof if it does the same without places.
abbrev Aloof (p : Parser α) : Prop := Alike p p

theorem Alike.blind {p q : Parser α} (h : Alike p q) : Blind p := by
  intro s t hst
  have hs := h (s := s) rfl
  have ht := h (s := t) rfl
  rw [hst] at hs
  rcases hs.cases with ⟨failure, other, hs, hq, hcause⟩ | ⟨a, s', b, _, hs, hq, hab, rfl⟩
  · rcases ht.cases with ⟨failure', other', ht, hq', hcause'⟩ | ⟨_, _, _, _, _, hq', -⟩
    · cases hq.symm.trans hq'
      simp [hs, ht, placeless, hcause.trans hcause'.symm]
    · cases hq.symm.trans hq'
  · rcases ht.cases with ⟨_, _, _, hq', -⟩ | ⟨a', t', b', _, ht, hq', hab', hst'⟩
    · cases hq.symm.trans hq'
    · cases hq.symm.trans hq'
      rw [hs, ht, placeless_ok, placeless_ok, placeless_mk, placeless_mk, ← hab, ← hab', ← hst']

-- Reading a property of the stream that has its places from the stream.
theorem Alike.get {f : TokenStream → α} (h : ∀ s, f (placeless s) = placeless (f s)) :
    Aloof (do return f (← MonadState.get)) := fun s _ hst => ⟨hst ▸ h s, hst⟩

theorem current_aloof : Aloof current := .get fun _ => rfl

theorem peek_aloof (offset : Nat) : Aloof (peek offset) := by
  refine .get fun s => ?_
  cases offset with
  | zero => rfl
  | succ offset => exact List.getElem?_map

theorem checkKeyword_aloof (lexeme : String) : Aloof (checkKeyword lexeme) := .get fun _ => rfl

theorem advance_aloof : Aloof advance := fun s _ hst => hst ▸ same_advance s

theorem skipSemicolons_aloof : Aloof skipSemicolons :=
  fun s _ hst => ⟨rfl, hst ▸ dropWhile_placeless (fun _ => rfl) s⟩

theorem repeated_aloof {skip : Parser Unit} {stop : Parser Bool} {item : Parser α}
    (hskip : Aloof skip) (hstop : Aloof stop) (hitem : Aloof item) (limit : Nat) :
    Aloof (repeated skip stop item limit) := by
  induction limit with
  | zero => exact exhausted_inStep
  | succ limit ih =>
      exact hskip.bind fun _ => .test hstop (.pure rfl) (hitem.bind fun _ =>
        ih.bind fun _ => .pure rfl)

section Assignments

variable {expression : Parser Expr} (hexpression : Aloof expression)

include hexpression

theorem assignedTo_aloof (limit : Nat) : Aloof (assignedTo expression limit) := by
  induction limit with
  | zero => exact exhausted_inStep
  | succ limit ih =>
      exact advance_aloof.bind fun _ => hexpression.bind fun _ =>
        .test (checkOperator_steady "=") (ih.bind fun _ => .pure rfl) (.pure rfl)

theorem assignment_alike (limit : Nat) (first : Expr) (pos : Pos) :
    Alike (assignment expression limit first pos)
      (assignment expression limit (placeless first) .start) :=
  (assignedTo_aloof hexpression limit).bind fun found =>
    (checkTargets_inStep (first :: found.1)).bind fun _ => .pure rfl

theorem augmented_alike (op : BinaryOp) (target : Expr) (pos : Pos) :
    Alike (augmented expression op target pos)
      (augmented expression op (placeless target) .start) :=
  (checkAssignable_inStep target).bind fun _ => advance_aloof.bind fun _ =>
    hexpression.bind fun _ => .pure rfl

end Assignments

end Diglot.Parser
