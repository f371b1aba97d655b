import Diglot.Proofs.Indented.Writes

namespace Diglot.Indented

theorem isSpelled_of_isOperator (e : Expr) (h : e.isOperator isName = true) :
    isSpelled e = true := by
  cases e with
  | number literal pos => exact h
  | var name pos => exact h
  | _ => simp_all [Expr.isOperator, isSpelledWith]

section Value

variable {operand left : Expr} {pos : Pos} {links : List (Comparison Expr)} {named : String → Bool}

-- A sign is read back where it stands unless it stands in front of a power.
theorem value_withSign_eq_iff {sign : UnaryOp} (hsign : sign ≠ .not)
    (ih : (written operand).value.placeless = operand.placeless ↔
      operand.all Expr.signsNoPower = true) :
    (withSign sign (enclose Level.unary operand (written operand))).value.placeless =
        .unary sign operand.placeless .start ↔
      (Expr.unary sign operand pos).all Expr.signsNoPower = true := by
  have hnode : (Expr.unary sign operand pos).signsNoPower = !operand.isPower := by
    cases sign <;> first | rfl | contradiction
  simp only [Expr.all, hnode, Bool.and_eq_true, Bool.not_eq_true', ← ih]
  unfold withSign
  split
  · rename_i base exponent _ _ hvalue
    -- The value is a power; if the operand is read back, it is one too.
    simp only [Expr.placeless, reduceCtorEq, false_iff, not_and]
    intro hpower hsame
    rw [Written.value_enclose] at hvalue
    have hpower' : operand.placeless.isPower = true := by
      rw [← hsame, Expr.isPower_placeless, hvalue]
      rfl
    rw [Expr.isPower_placeless, hpower] at hpower'
    contradiction
  · rename_i hother
    have hpower : operand.isPower = false := by
      apply Bool.eq_false_iff.mpr
      intro hpower
      cases operand with
      | binary op left right pos =>
          cases op <;> simp [Expr.isPower] at hpower
          exact hother _ _ _ rfl rfl
      | _ => simp [Expr.isPower] at hpower
    simp [prefixed, Expr.placeless, hpower]

theorem linkValues_eq_iff
    (ih : ∀ link ∈ links, ((written link.right).value.placeless = link.right.placeless ↔
      link.right.all Expr.signsNoPower = true)) :
    linksPlaceless (linkValues (writtenLinks links)) = linksPlaceless links ↔
      Expr.linksAll Expr.signsNoPower links = true := by
  induction links with
  | nil => simp [writtenLinks, linkValues, linksPlaceless, Expr.linksAll]
  | cons link links ihlinks =>
      obtain ⟨op, right⟩ := link
      obtain ⟨hright, hlinks⟩ := List.forall_mem_cons.mp ih
      have hrest := ihlinks hlinks
      rw [linkValues] at hrest
      simp [writtenLinks, linkValues, linksPlaceless, Expr.linksAll, hright, hrest]

theorem linked_of_isOrder (hne : links ≠ []) (h : ∀ link ∈ links, link.op.isOrder = true) :
    linked left .start links = .compare left links .start := by
  unfold linked
  split
  · contradiction
  · simp [CompareOp.isOrder] at h
  · simp [CompareOp.isOrder] at h
  · rfl

theorem isOrder_linkValues (h : ∀ link ∈ links, link.op.isOrder = true) :
    ∀ link ∈ linkValues (writtenLinks links), link.op.isOrder = true := by
  induction links with
  | nil => simp [writtenLinks, linkValues]
  | cons link links ih =>
      obtain ⟨hlink, hlinks⟩ := List.forall_mem_cons.mp h
      exact List.forall_mem_cons.mpr ⟨hlink, ih hlinks⟩

theorem value_written_compare {comparisons : List (Comparison Expr)} (hne : comparisons ≠ [])
    (h : ∀ link ∈ comparisons, link.op.isOrder = true) :
    (written (.compare left comparisons pos)).value =
      .compare (written left).value (linkValues (writtenLinks comparisons)) .start := by
  have hvalues : linkValues (writtenLinks comparisons) ≠ [] := by
    cases comparisons with
    | nil => contradiction
    | cons first rest => exact List.cons_ne_nil _ _
  rw [written, compare, Written.value_enclose, linked_of_isOrder hvalues (isOrder_linkValues h)]

theorem written_not_of_isOperator (h : operand.all (Expr.isOperator named) = true) :
    written (.unary .not operand pos) =
      prefixed .not (enclose Level.negation operand (written operand)) := by
  cases operand with
  | call callee args pos => simp [Expr.all, Expr.isOperator] at h
  | _ => rfl

-- An expression that is made of operators is read back from what is written unless a sign in it
-- stands in front of a power.
theorem value_written_eq_iff {e : Expr} (h : e.all (Expr.isOperator named) = true) :
    (written e).value.placeless = e.placeless ↔ e.all Expr.signsNoPower = true := by
  induction e, h using Expr.operator_induct with
  | binary op left right pos _ _ hleft hright =>
      simp [written, binary, Written.infixed, Expr.placeless, Expr.all, Expr.signsNoPower, hleft,
        hright]
  | unary op operand pos hoperand ih =>
      cases op with
      | negate => exact value_withSign_eq_iff (by simp) ih
      | plus => exact value_withSign_eq_iff (by simp) ih
      | not =>
          simp [written_not_of_isOperator hoperand, prefixed, Expr.placeless, Expr.all,
            Expr.signsNoPower, ih]
  | logical op left right pos _ _ hleft hright =>
      simp [written, logical, Written.infixed, Expr.placeless, Expr.all, Expr.signsNoPower, hleft,
        hright]
  | compare left comparisons pos _ hleft hne hlinks =>
      have hvalues := linkValues_eq_iff fun link hlink => (hlinks link hlink).2.2
      rw [value_written_compare hne fun link hlink => (hlinks link hlink).1]
      simp [Expr.placeless, Expr.all, Expr.signsNoPower, hleft, hvalues]
  | conditional test consequent alternate pos _ _ _ htest hconsequent halternate =>
      simp [written, ternary, Expr.placeless, Expr.all, Expr.signsNoPower, htest, hconsequent,
        halternate, and_assoc]
  | number literal pos | boolean value pos | null pos | var name pos =>
      simp [written, Written.ofNumber, Written.ofKeyword, Written.ofName, Written.leaf,
        Expr.placeless, Expr.all, Expr.signsNoPower]

end Value

-- The text of an expression that is made of operators is read to its end. It says the expression
-- again if and only if no sign in the expression stands in front of a power.
theorem parseWhole_writeExpr_iff_signsNoPower {e : Expr}
    (h : e.all (Expr.isOperator isName) = true) :
    ∃ found, parseWhole .pythonScript (writeExpr e) = .ok (found, true) ∧
      (placeless found = placeless e ↔ e.all Expr.signsNoPower = true) := by
  have hspelled := Expr.all_imp isSpelled_of_isOperator e h
  obtain ⟨found, hparse, hfound⟩ := parseWhole_writeExpr hspelled
  refine ⟨found, hparse, ?_⟩
  rw [hfound]
  exact value_written_eq_iff h

-- `-(a ** 2) < b != None`.
def signedPower : Expr :=
  .compare (.unary .negate (.binary .power (.var "a" .start) (.number "2" .start) .start) .start)
    [⟨.less, .var "b" .start⟩, ⟨.notEqual, .null .start⟩] .start

theorem parseWhole_writeExpr_signedPower :
    signedPower.all (Expr.isOperator isName) = true ∧
      ∃ found, parseWhole .pythonScript (writeExpr signedPower) = .ok (found, true) ∧
        placeless found ≠ placeless signedPower := by
  have hoperators : signedPower.all (Expr.isOperator isName) = true := by decide
  obtain ⟨found, hparse, hfound⟩ := parseWhole_writeExpr_iff_signsNoPower hoperators
  exact ⟨hoperators, found, hparse, fun hsame => absurd (hfound.mp hsame) (by decide)⟩

end Diglot.Indented
