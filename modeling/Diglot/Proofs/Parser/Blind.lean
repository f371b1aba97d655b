import Diglot.Proofs.Placeless

namespace Diglot.Parser

variable {α : Type} [Placed α]

-- A reader is blind if no place steers it: on streams that are equal up to places it gives values
-- and streams that are equal up to places, or fails for the same cause.
def Blind (p : Parser α) : Prop :=
  ∀ s t : TokenStream, placeless s = placeless t → placeless (p s) = placeless (p t)

section Streams

variable {s t : TokenStream} {p : Token → Bool}

theorem kind_eq_of_placeless (hst : placeless s = placeless t) :
    s.current.kind = t.current.kind :=
  (placeless_token_eq_iff.mp (placeless_stream_eq_iff.mp hst).1).1

theorem isAtEnd_eq_of_placeless (hst : placeless s = placeless t) : s.isAtEnd = t.isAtEnd := by
  simp [TokenStream.isAtEnd, kind_eq_of_placeless hst]

theorem move_placeless (s : TokenStream) : (placeless s).move = placeless s.move := by
  obtain ⟨current, upcoming, blocks⟩ := s
  cases upcoming with
  | nil => rfl
  | cons next rest =>
      show (if (TokenStream.mk current (next :: rest) blocks).isAtEnd then _ else _) = _
      unfold TokenStream.move
      dsimp only
      split <;> rfl

theorem dropTokens_placeless (hp : ∀ a : Token, p (placeless a) = p a) (a : Token)
    (l : List Token) :
    TokenStream.dropTokens p (placeless a) (placeless l) =
      placeless (TokenStream.dropTokens p a l) := by
  induction l generalizing a with
  | nil => rfl
  | cons next rest ih =>
      simp only [placeless_cons, TokenStream.dropTokens, hp a]
      split
      · exact ih next
      · rfl

theorem unexpected_placeless (s : TokenStream) (expected : String) :
    (placeless s).unexpected expected = placeless (s.unexpected expected) := by
  show (if s.isAtEnd then _ else _) = _
  unfold TokenStream.unexpected
  split <;> rfl

theorem advance_placeless (s : TokenStream) : (placeless s).advance = placeless s.advance := by
  obtain ⟨current, upcoming, blocks⟩ := s
  unfold TokenStream.advance
  rw [move_placeless]
  cases blocks with
  | none => rfl
  | some blocks =>
      have hafter : TokenStream.blocksAfter blocks (placeless current) =
          TokenStream.blocksAfter blocks current := rfl
      dsimp only [placeless] at hafter ⊢
      rw [hafter]
      cases TokenStream.blocksAfter blocks current with
      | error cause => rfl
      | ok after => rfl

theorem dropWhile_placeless (hp : ∀ a : Token, p (placeless a) = p a) (s : TokenStream) :
    (placeless s).dropWhile p = placeless (s.dropWhile p) :=
  congrArg (fun found => (⟨found.1, found.2, s.blocks⟩ : TokenStream))
    (dropTokens_placeless hp s.current s.upcoming)

end Streams

end Diglot.Parser
