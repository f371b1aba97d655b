import Diglot.Proofs.Indented.Lexed
import Mathlib.Logic.Basic

namespace Diglot.Indented

open Fragment (textAt textAt_append textAt_indent textAt_phrase toList_render)
open Token (op)

-- The widths of the blocks around a line of a depth, innermost first.
def columns (width : Nat) : Nat → List Nat
  | 0 => []
  | depth + 1 => (depth + 1) * width :: columns width depth

section Columns

variable {width depth inner : Nat}

theorem headD_columns (width depth : Nat) : (columns width depth).headD 0 = depth * width := by
  cases depth with
  | zero => rw [Nat.zero_mul]; rfl
  | succ depth => rfl

theorem length_columns (width depth : Nat) : (columns width depth).length = depth := by
  induction depth with
  | zero => rfl
  | succ depth ih => rw [columns, List.length_cons, ih]

variable [Fact (0 < width)]

-- Leaving blocks goes back to the columns of a smaller depth.
theorem dropWhile_columns (hle : inner ≤ depth) :
    (columns width depth).dropWhile (inner * width < ·) = columns width inner := by
  induction depth with
  | zero =>
      obtain rfl : inner = 0 := Nat.le_zero.mp hle
      rfl
  | succ depth ih =>
      by_cases hsame : inner = depth + 1
      · subst hsame
        simp [columns]
      · have hlt : inner * width < (depth + 1) * width :=
          Nat.mul_lt_mul_of_pos_right (by omega) Fact.out
        simp only [columns, List.dropWhile_cons, hlt, decide_true, if_true]
        exact ih (by omega)

theorem relayout_indent :
    relayout (columns width depth) ((depth + 1) * width) =
      .ok ([(.indent, toString ((depth + 1) * width))], columns width (depth + 1)) := by
  have hlt : depth * width < (depth + 1) * width :=
    Nat.mul_lt_mul_of_pos_right (Nat.lt_succ_self depth) Fact.out
  rw [relayout, headD_columns, if_pos hlt]
  rfl

theorem relayout_dedent (hle : inner ≤ depth) :
    relayout (columns width depth) (inner * width) =
      .ok (List.replicate (depth - inner) (.dedent, ""), columns width inner) := by
  have hnot : ¬ depth * width < inner * width := Nat.not_lt.mpr (Nat.mul_le_mul_right width hle)
  rw [relayout, headD_columns, if_neg hnot, dropWhile_columns hle]
  simp only [headD_columns, length_columns, if_true]

end Columns

section Lined

variable {width depth inner : Nat} {text rest : List Char} {tokens more : List Token}

-- Lines, the first of which has a depth, and the tokens that they make behind its layout.
inductive Lined (width : Nat) : Nat → List Char → List Token → Prop
  | ending : Lined width 0 [] [.ending]
  | line {depth : Nat} {text : List Char} {tokens : List Token}
      (hopens : text.head?.any opensText = true)
      (hlexes : Lexes (columns width depth) 0 text tokens) :
      Lined width depth (List.replicate (depth * width) ' ' ++ text) tokens

-- Lines that are indented no further than a depth, and the tokens that they make behind a line of
-- this depth.
def Resumes (width depth : Nat) (rest : List Char) (tokens : List Token) : Prop :=
  ∃ inner more, inner ≤ depth ∧ Lined width inner rest more ∧
    tokens = List.replicate (depth - inner) .dedent ++ more

theorem Lined.resumes (h : Lined width depth rest tokens) : Resumes width depth rest tokens :=
  ⟨depth, tokens, Nat.le_refl depth, h, by simp⟩

-- Behind a line that is one level further in, a dedent comes first.
theorem Resumes.leave (h : Resumes width depth rest tokens) :
    Resumes width (depth + 1) rest (.dedent :: tokens) := by
  obtain ⟨inner, more, hle, hlined, rfl⟩ := h
  refine ⟨inner, more, Nat.le_succ_of_le hle, hlined, ?_⟩
  rw [Nat.succ_sub hle, List.replicate_succ, List.cons_append]

variable [Fact (0 < width)]

theorem Lined.dedent (h : Lined width inner rest more) (hle : inner ≤ depth) :
    LexesLines (columns width depth) rest (List.replicate (depth - inner) .dedent ++ more) := by
  cases h with
  | ending =>
      have hnil : LexesLines (columns width depth) [] _ := lexesLines_nil
      rwa [length_columns] at hnil
  | line hopens hlexes =>
      have hline := hlexes.line hopens (relayout_dedent hle)
      rwa [List.map_replicate] at hline

theorem Lined.indent (h : Lined width (depth + 1) rest more) :
    LexesLines (columns width depth) rest (.indent ((depth + 1) * width) :: more) := by
  cases h with
  | line hopens hlexes => exact hlexes.line hopens relayout_indent

theorem Resumes.lexesLines (h : Resumes width depth rest tokens) :
    LexesLines (columns width depth) rest tokens := by
  obtain ⟨inner, more, hle, hlined, rfl⟩ := h
  exact hlined.dedent hle

end Lined

section Fragments

variable {width depth : Nat} {first second body : Fragment} {phrase : Phrase}
  {text : List Char} {tokens : List Token}

-- Lines are made into tokens at every depth, in front of all lines that are not indented further.
def Lays (width : Nat) (fragment : Fragment) (tokens : Nat → List Token) : Prop :=
  ∀ ⦃depth rest more⦄, Resumes width depth rest more →
    Lined width depth (textAt width depth fragment ++ rest) (tokens depth ++ more)

-- The same of lines that need not be there.
def LaysMore (width : Nat) (fragment : Fragment) (tokens : Nat → List Token) : Prop :=
  ∀ ⦃depth rest more⦄, Resumes width depth rest more →
    Resumes width depth (textAt width depth fragment ++ rest) (tokens depth ++ more)

variable {firstTokens secondTokens inner : Nat → List Token}

theorem Lays.more (h : Lays width first firstTokens) : LaysMore width first firstTokens :=
  fun _ _ _ hrest => (h hrest).resumes

theorem laysMore_empty : LaysMore width .empty fun _ => [] := fun _ _ _ hrest => hrest

theorem Lays.append (hfirst : Lays width first firstTokens)
    (hsecond : LaysMore width second secondTokens) :
    Lays width (first ++ second) fun depth => firstTokens depth ++ secondTokens depth := by
  intro depth rest more hrest
  rw [textAt_append, List.append_assoc, List.append_assoc]
  exact hfirst (hsecond hrest)

theorem lined_phrase {rest : List Char} {more : List Token}
    (hopens : phrase.text.toList.head?.any opensText = true)
    (hlexes : scanner.LexesAs phrase.text.toList tokens)
    (hrest : LexesLines (columns width depth) rest more) :
    Lined width depth (textAt width depth (.phrase phrase) ++ rest) (tokens ++ .newline :: more) := by
  have hline : scanner.lexes (columns width depth, 0) ('\n' :: rest) (.newline :: more) :=
    hrest.newline
  have htext : (phrase.text.toList ++ '\n' :: rest).head?.any opensText = true := by
    cases hphrase : phrase.text.toList with
    | nil => simp [hphrase] at hopens
    | cons c text => simpa [hphrase] using hopens
  rw [textAt_phrase, List.append_assoc, List.append_assoc, List.singleton_append]
  exact .line htext (hlexes (ends_cons (by decide) rest) hline)

-- One line.
theorem lays_phrase [Fact (0 < width)] (hopens : phrase.text.toList.head?.any opensText = true)
    (hlexes : scanner.LexesAs phrase.text.toList tokens) :
    Lays width (.phrase phrase) fun _ => tokens ++ [.newline] := by
  intro depth rest more hrest
  rw [List.append_assoc]
  exact lined_phrase hopens hlexes hrest.lexesLines

-- The tokens of a block that stands behind its colon.
def blockTokens (width depth : Nat) (inner : List Token) : List Token :=
  op ":" :: .newline :: .indent ((depth + 1) * width) :: (inner ++ [.dedent])

-- A line with a colon at its end, and the lines of a block.
theorem lays_block [Fact (0 < width)] (hopens : text.head?.any opensText = true)
    (hlexes : scanner.LexesAs text tokens) (htext : phrase.text.toList = text ++ [':'])
    (hbody : Lays width body inner) :
    Lays width (.phrase phrase ++ body.indent) fun depth =>
      tokens ++ blockTokens width depth (inner (depth + 1)) := by
  intro depth rest more hrest
  have hinner := (hbody hrest.leave).indent
  have hphrase : phrase.text.toList.head?.any opensText = true := by
    rw [htext]
    cases text with
    | nil => simp at hopens
    | cons c text => exact hopens
  have hcolon : scanner.LexesAs phrase.text.toList (tokens ++ [op ":"]) := by
    rw [htext]
    exact hlexes.append (Scanner.lexesAs_nil.mark ':' (by decide))
      fun rest _ => ends_cons (by decide) rest
  have hline := lined_phrase hphrase hcolon hinner
  rw [textAt_append, textAt_indent, List.append_assoc]
  simpa [blockTokens] using hline

-- The tokens of a program are those of its lines.
theorem Lays.tokenize [Fact (0 < width)] (h : LaysMore width first firstTokens) :
    ∃ found, Indented.tokenize (first.render width) = .ok found ∧
      placeless found = firstTokens 0 ++ [.ending] := by
  have hlines := (h (Lined.ending.resumes)).lexesLines
  rw [List.append_nil, ← toList_render] at hlines
  exact hlines.tokenize

end Fragments

end Diglot.Indented
