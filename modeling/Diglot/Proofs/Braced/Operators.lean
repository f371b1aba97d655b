import Diglot.Proofs.Braced.Writes

namespace Diglot.Braced

mutual

-- An expression without what the braced notation cannot say: a floor division is a call, and a
-- chain of comparisons is a conjunction of single ones, with its middle operands repeated.
def lowered : Expr → Expr
  | .binary .floorDivide left right pos =>
      .call (.member (.var "Math" pos) "floor" pos)
        [.binary .divide (lowered left) (lowered right) pos] pos
  | .binary op left right pos => .binary op (lowered left) (lowered right) pos
  | .unary op operand pos => .unary op (lowered operand) pos
  | .logical op left right pos => .logical op (lowered left) (lowered right) pos
  | .compare left [] pos => .compare (lowered left) [] pos
  | .compare left (⟨op, right⟩ :: rest) pos =>
      (singles pos (lowered right) rest).foldl (fun left right => .logical .and left right pos)
        (.compare (lowered left) [⟨op, lowered right⟩] pos)
  | .conditional test consequent alternate pos =>
      .conditional (lowered test) (lowered consequent) (lowered alternate) pos
  | e => e

-- The comparisons of a chain, each with the operand on its left.
def singles (pos : Pos) (left : Expr) : List (Comparison Expr) → List Expr
  | [] => []
  | ⟨op, right⟩ :: rest =>
      .compare left [⟨op, lowered right⟩] pos :: singles pos (lowered right) rest

end

theorem isSpelled_of_isOperator (e : Expr) (h : e.isOperator isName = true) :
    isSpelled e = true := by
  cases e with
  | compare left comparisons pos => exact h
  | number literal pos => exact h
  | var name pos => exact h
  | _ => simp_all [Expr.isOperator, isSpelled]

section Value

theorem value_comparing {op : CompareOp} (h : op.isOrder = true) (left right : Written) :
    (comparing op left right).value = .compare left.value [⟨op, right.value⟩] .start := by
  cases op <;> first | rfl | simp [CompareOp.isOrder] at h

theorem placeless_foldl_logical {pos place : Pos} {exprs others : List Expr}
    (h : exprs.map Expr.placeless = others.map Expr.placeless) {first other : Expr}
    (hfirst : first.placeless = other.placeless) :
    (exprs.foldl (fun left right => .logical .and left right pos) first).placeless =
      (others.foldl (fun left right => .logical .and left right place) other).placeless := by
  induction exprs generalizing others first other with
  | nil =>
      cases others with
      | nil => exact hfirst
      | cons _ _ => simp at h
  | cons next exprs ih =>
      cases others with
      | nil => simp at h
      | cons last others =>
          simp only [List.map_cons, List.cons.injEq] at h
          refine ih h.2 ?_
          rw [Expr.placeless, Expr.placeless, hfirst, h.1]

theorem value_foldl_logical (pairs : List Written) (first : Written) :
    (pairs.foldl (fun left right => logical .and left right.group) first).value =
      (pairs.map (·.value)).foldl (fun left right => .logical .and left right .start)
        first.value := by
  induction pairs generalizing first with
  | nil => rfl
  | cons pair pairs ih => exact ih (logical .and first pair.group)

theorem value_conjoined {pos : Pos} {pair : Written} {pairs : List Written} {first : Expr}
    {exprs : List Expr} (hfirst : pair.value.placeless = first.placeless)
    (h : pairs.map (·.value.placeless) = exprs.map Expr.placeless) :
    (conjoined (pair :: pairs)).value.placeless =
      (exprs.foldl (fun left right => .logical .and left right pos) first).placeless := by
  cases pairs with
  | nil =>
      cases exprs with
      | nil => exact hfirst
      | cons _ _ => simp at h
  | cons next pairs =>
      rw [conjoined, value_foldl_logical]
      exact placeless_foldl_logical (by rwa [List.map_map]) hfirst

theorem value_writtenPairs {pos : Pos} {links : List (Comparison Expr)}
    (h : ∀ link ∈ links, link.op.isOrder = true ∧
      (written link.right).value.placeless = (lowered link.right).placeless)
    {w : Written} {left : Expr} (hleft : w.value.placeless = left.placeless) :
    (writtenPairs w links).map (·.value.placeless) =
      (singles pos left links).map Expr.placeless := by
  induction links generalizing w left with
  | nil => rfl
  | cons link links ih =>
      obtain ⟨op, right⟩ := link
      obtain ⟨⟨hop, hright⟩, hlinks⟩ := List.forall_mem_cons.mp h
      have hnext : (enclose (Level.comparison + 1) right (written right)).value.placeless =
        (lowered right).placeless := by rwa [Written.value_enclose]
      simp only [writtenPairs, singles, List.map_cons, value_comparing hop, ih hlinks hnext]
      simp [Expr.placeless, linksPlaceless, hleft, hright]

-- What is written says the lowered expression.
theorem value_written {named : String → Bool} {e : Expr}
    (h : e.all (Expr.isOperator named) = true) :
    (written e).value.placeless = (lowered e).placeless := by
  induction e, h using Expr.operator_induct with
  | binary op left right pos _ _ hleft hright =>
      cases op <;>
        simp [written, lowered, ask, Written.ofName, Written.leaf, Written.call, Written.member, Written.group,
          binary, Written.infixed, Expr.placeless, exprsPlaceless, hleft, hright]
  | unary op operand pos _ ih => simp [written, lowered, prefixed, Expr.placeless, ih]
  | logical op left right pos _ _ hleft hright =>
      simp [written, lowered, logical, Written.infixed, Expr.placeless, hleft, hright]
  | compare left comparisons pos _ hleft hne hlinks =>
      have hlinks := fun link hlink => (hlinks link hlink).imp_right (·.2)
      cases comparisons with
      | nil => contradiction
      | cons link rest =>
          obtain ⟨op, right⟩ := link
          obtain ⟨⟨hop, hright⟩, hrest⟩ := List.forall_mem_cons.mp hlinks
          rw [written, lowered, writtenPairs]
          refine value_conjoined ?_ (value_writtenPairs hrest (by rwa [Written.value_enclose]))
          simp [value_comparing hop, Expr.placeless, linksPlaceless, hleft, hright]
  | conditional test consequent alternate pos _ _ _ htest hconsequent halternate =>
      simp [written, lowered, ternary, Expr.placeless, htest, hconsequent, halternate]
  | number literal pos | boolean value pos | null pos | var name pos =>
      simp [written, lowered, Written.ofNumber, Written.ofKeyword, Written.ofName, Written.leaf, Expr.placeless]

end Value

-- The text of an expression that is made of operators is read to its end, and says the lowered
-- expression.
theorem parseWhole_writeExpr_lowered {e : Expr} (h : e.all (Expr.isOperator isName) = true) :
    ∃ found, parseWhole .javaScript (writeExpr false e) = .ok (found, true) ∧
      placeless found = placeless (lowered e) := by
  obtain ⟨found, hparse, hfound⟩ :=
    parseWhole_writeExpr (Expr.all_imp isSpelled_of_isOperator e h)
  exact ⟨found, hparse, hfound.trans (value_written h)⟩

-- `a // 2 < b <= c`.
def flooredChain : Expr :=
  .compare (.binary .floorDivide (.var "a" .start) (.number "2" .start) .start)
    [⟨.less, .var "b" .start⟩, ⟨.lessEqual, .var "c" .start⟩] .start

-- The quotient is rounded down by a call, and the operand in the middle is written twice.
theorem parseWhole_writeExpr_flooredChain :
    flooredChain.all (Expr.isOperator isName) = true ∧
      ∃ found, parseWhole .javaScript (writeExpr false flooredChain) = .ok (found, true) ∧
        placeless found = .logical .and
          (.compare (.call (.member (.var "Math" .start) "floor" .start)
            [.binary .divide (.var "a" .start) (.number "2" .start) .start] .start)
              [⟨.less, .var "b" .start⟩] .start)
          (.compare (.var "b" .start) [⟨.lessEqual, .var "c" .start⟩] .start) .start := by
  have hoperators : flooredChain.all (Expr.isOperator isName) = true := by decide
  obtain ⟨found, hparse, hfound⟩ := parseWhole_writeExpr_lowered hoperators
  exact ⟨hoperators, found, hparse, hfound⟩

end Diglot.Braced
