import Diglot.Proofs.Indented.InStep
import Diglot.Proofs.Parser.Trees
import Diglot.Proofs.Parts

namespace Diglot.Indented

open Diglot.Parser Setting

-- A failure inside an interpolated text is the notation's own, and so is a block that is still open
-- at the end.
def setting (tokens : List Token) (embedded : Embedder) : Setting where
  dialect := .pythonScript
  tokens := tokens
  Own s failure :=
    (s.current.kind = .interpolated ∧
      ∃ reason, segments embedded s.current.lexeme.toList = .error reason ∧
        failure = ⟨.invalidInterpolation reason, s.current.pos⟩) ∨
    (s.isAtEnd = true ∧ s.depth ≠ 0 ∧
      failure = s.refused "indented block is not closed at end of input")

-- The settings that suit the notation.
class Suits (S : Setting) : Prop where
  dialect : S.dialect = .pythonScript

instance (tokens : List Token) (embedded : Embedder) :
    Suits (setting tokens embedded) := ⟨rfl⟩

-- Two readers of embedded expressions, which make the same of all interpolated texts among the
-- tokens. What they read is shaped.
structure Embeds (tokens : List Token) (embedded other : Embedder) : Prop where
  same : ∀ token ∈ tokens, token.kind = .interpolated →
    segments embedded token.lexeme.toList = segments other token.lexeme.toList
  shaped : ∀ source e, embedded source = .ok e → e.Shaped .pythonScript

section Segments

open Segment (areJoined consChar exprs_consChar)

theorem areJoined_consChar (c : Char) {segments : List (Segment Expr)}
    (h : areJoined segments = true) : areJoined (consChar c segments) = true := by
  match segments with
  | [] => simp [consChar, areJoined]
  | .expr value :: rest => simpa [consChar, areJoined, Segment.isText] using h
  | .text value :: rest =>
      simp only [areJoined, Bool.and_eq_true] at h
      simp [consChar, areJoined, h]

-- Texts are joined, and the expressions between them are those that are embedded.
theorem joined_of_segments {embedded : Embedder} {P : Expr → Prop}
    (hembedded : ∀ source e, embedded source = .ok e → P e) {text : List Char}
    {found : List (Segment Expr)} (h : segments embedded text = .ok found) :
    areJoined found = true ∧ ∀ e ∈ found.filterMap (·.expr?), P e := by
  have hcons : ∀ (c : Char) {behind : Except Cause (List (Segment Expr))} {found},
      (∀ {inner}, behind = .ok inner →
        areJoined inner = true ∧ ∀ e ∈ inner.filterMap (·.expr?), P e) →
      behind.map (consChar c) = .ok found →
        areJoined found = true ∧ ∀ e ∈ found.filterMap (·.expr?), P e := by
    intro c behind found hinner hfound
    cases behind with
    | error reason => cases hfound
    | ok inner =>
        cases hfound
        obtain ⟨hjoined, hall⟩ := hinner rfl
        exact ⟨areJoined_consChar c hjoined, exprs_consChar c inner ▸ hall⟩
  fun_induction segments embedded text generalizing found with
  | case1 =>
      cases h
      exact ⟨rfl, by simp⟩
  | case2 rest ih | case3 rest ih => exact hcons _ ih h
  | case4 => cases h
  | case5 rest hnot source behind hclose _ ih =>
      obtain ⟨value, hvalue, h⟩ := exists_of_bind_eq_ok h
      obtain ⟨following, hfollowing, h⟩ := exists_of_bind_eq_ok h
      cases h
      obtain ⟨hjoined, hall⟩ := ih hfollowing
      exact ⟨hjoined, List.forall_mem_cons.mpr ⟨hembedded source value hvalue, hall⟩⟩
  | case6 c rest _ _ _ ih => exact hcons _ ih h

end Segments

variable {S : Setting} {pos : Pos}

theorem not_braced [Suits S] {P : Prop} (h : S.dialect = .javaScript) : P := by
  rw [Suits.dialect] at h
  cases h

theorem isExpr_linked [Suits S] {left : Expr} {links : List (Comparison Expr)}
    (hpos : S.IsPlace pos) (hleft : S.IsExpr left) (hlinks : ∀ link ∈ links, S.IsExpr link.right) :
    S.IsExpr (linked left pos links) := by
  match links with
  | [] => exact hleft
  | [⟨op, right⟩] =>
      have hboth : ∀ e ∈ [left, right], S.IsExpr e := by
        simpa [hleft] using hlinks ⟨op, right⟩ (.head _)
      cases op <;> exact isExpr_of_parts (by rw [Suits.dialect]; rfl) ⟨rfl, rfl, rfl⟩ hpos hboth
  | ⟨op, right⟩ :: second :: rest =>
      have heq : linked left pos (⟨op, right⟩ :: second :: rest) =
          .compare left (⟨op, right⟩ :: second :: rest) pos := by cases op <;> rfl
      rw [heq]
      exact isExpr_of_parts (by rw [Suits.dialect]; rfl) ⟨rfl, rfl, rfl⟩ hpos
        (List.forall_mem_cons.mpr ⟨hleft, List.forall_mem_map.mpr hlinks⟩)

theorem isExpr_slice [Suits S] {object : Expr} {start stop step : Option Expr}
    (hpos : S.IsPlace pos) (hobject : S.IsExpr object) (hstart : ∀ e ∈ start, S.IsExpr e)
    (hstop : ∀ e ∈ stop, S.IsExpr e) (hstep : ∀ e ∈ step, S.IsExpr e) :
    S.IsExpr (.slice object start stop step pos) := by
  refine isExpr_of_parts (by rw [Suits.dialect]; rfl) ⟨rfl, rfl, rfl⟩ hpos ?_
  simp only [Expr.outer, Expr.children, List.forall_mem_cons, List.forall_mem_append,
    Option.mem_toList]
  exact ⟨hobject, ⟨hstart, hstop⟩, hstep⟩

theorem isEntry_dictKey {key value : Expr} (hkey : S.IsExpr key) (hvalue : S.IsExpr value) :
    S.IsEntry ⟨dictKey key, value⟩ := by
  have hboth : ∀ e ∈ [key, value], S.IsExpr e := by simp [hkey, hvalue]
  cases key with
  | string text pos => exact ⟨by simp [dictKey, DictKey.number?], fun e he => hboth e (.tail _ he)⟩
  | number text pos =>
      refine ⟨?_, fun e he => hboth e (.tail _ he)⟩
      simpa [dictKey, DictKey.number?, Expr.literals] using hkey.self.literals
  | _ => exact ⟨by simp [dictKey, DictKey.number?], hboth⟩

theorem iterationOf_isExpr {iterable : Expr} (h : S.IsExpr iterable) :
    (iterationOf iterable).isFormed = true ∧ ∀ e ∈ (iterationOf iterable).exprs, S.IsExpr e := by
  unfold iterationOf
  split
  all_goals
    refine ⟨rfl, fun e he => ?_⟩
  -- The arguments of `range` stand behind its name.
  · exact h.parts e (.tail _ he)
  · exact h.parts e (.tail _ he)
  · exact h.parts e (.tail _ he)
  · rw [List.mem_singleton.mp he]
    exact h

end Diglot.Indented
