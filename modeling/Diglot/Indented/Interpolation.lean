import Diglot.Failure
import Diglot.Text.Embedding
import Diglot.Syntax.Expr

namespace Diglot

-- Puts a character in front of some segments. It joins the text that they start with, so that no
-- two texts stand side by side and none is empty.
def Segment.consChar {ε : Type} (c : Char) : List (Segment ε) → List (Segment ε)
  | .text value :: rest => .text (String.singleton c ++ value) :: rest
  | segments => .text (String.singleton c) :: segments

namespace Indented

-- Splits the text of an interpolated string into its segments. A doubled brace is a brace of the
-- text, and so is a closing brace that closes nothing. `embedded` reads the source of an embedded
-- expression.
def segments (embedded : List Char → Except Cause Expr) :
    List Char → Except Cause (List (Segment Expr))
  | [] => .ok []
  | '{' :: '{' :: rest => (segments embedded rest).map (Segment.consChar '{')
  | '}' :: '}' :: rest => (segments embedded rest).map (Segment.consChar '}')
  | '{' :: rest =>
      match hclose : Embedding.close 0 none rest with
      | none => .error .unclosedEmbedding
      | some (source, behind) => do
          have shorter : behind.length < rest.length := by
            simp only [Embedding.append_of_close hclose, List.length_append, List.length_cons]
            omega
          let value ← embedded source
          let following ← segments embedded behind
          return .expr value :: following
  | c :: rest => (segments embedded rest).map (Segment.consChar c)
termination_by text => text.length

section Braces

variable (embedded : List Char → Except Cause Expr) {rest : List Char}
  (hopen : ∀ more, rest = '{' :: more → False)

include hopen

theorem segments_unclosed (hclose : Embedding.close 0 none rest = none) :
    segments embedded ('{' :: rest) = .error .unclosedEmbedding := by
  rw [segments.eq_4 _ _ hopen]
  split
  · rfl
  · rename_i hsome
    rw [hclose] at hsome
    cases hsome

theorem segments_closed {source behind : List Char}
    (hclose : Embedding.close 0 none rest = some (source, behind)) :
    segments embedded ('{' :: rest) = (do
      let value ← embedded source
      let following ← segments embedded behind
      return .expr value :: following) := by
  rw [segments.eq_4 _ _ hopen]
  split
  · rename_i hnone
    rw [hclose] at hnone
    cases hnone
  · rename_i hsome
    rw [hclose] at hsome
    cases hsome
    rfl

end Braces

end Indented

end Diglot
