import Diglot.Proofs.Indented.Places
import Diglot.Proofs.Shapes

namespace Diglot

namespace Indented

section Count

variable {template : String → Nat}

theorem countExprsWith_eq_zero {exprs : List Expr} (h : ∀ e ∈ exprs, countExprWith template e = 0) :
    countExprsWith template exprs = 0 := by
  induction exprs with
  | nil => rfl
  | cons first rest ih =>
      obtain ⟨hfirst, hrest⟩ := List.forall_mem_cons.mp h
      rw [countExprsWith, hfirst, ih hrest]

theorem countOptionWith_eq_zero {expr : Option Expr}
    (h : ∀ e ∈ expr.toList, countExprWith template e = 0) : countOptionWith template expr = 0 := by
  cases expr with
  | none => rfl
  | some expr => exact h expr (by simp)

theorem countLinksWith_eq_zero {links : List (Comparison Expr)}
    (h : ∀ e ∈ links.map (·.right), countExprWith template e = 0) :
    countLinksWith template links = 0 := by
  induction links with
  | nil => rfl
  | cons first rest ih =>
      obtain ⟨hfirst, hrest⟩ := List.forall_mem_cons.mp h
      rw [countLinksWith, hfirst, ih hrest]

theorem countEntriesWith_eq_zero {entries : List (DictEntry Expr)}
    (h : ∀ e ∈ entries.flatMap (·.exprs), countExprWith template e = 0) :
    countEntriesWith template entries = 0 := by
  induction entries with
  | nil => rfl
  | cons first rest ih =>
      rw [List.flatMap_cons, List.forall_mem_append] at h
      obtain ⟨key, value⟩ := first
      have hrest := ih h.2
      cases key <;> simp_all [countEntriesWith, DictEntry.exprs]

theorem countSegmentsWith_eq_zero {segments : List (Segment Expr)}
    (h : ∀ e ∈ segments.filterMap (·.expr?), countExprWith template e = 0) :
    countSegmentsWith template segments = 0 := by
  induction segments with
  | nil => rfl
  | cons first rest ih =>
      cases first with
      | text value => rw [countSegmentsWith, ih (by simpa [Segment.expr?] using h)]
      | expr value =>
          obtain ⟨hvalue, hrest⟩ := List.forall_mem_cons.mp h
          rw [countSegmentsWith, hvalue, ih hrest]

-- Without templates there are no placeholders.
theorem countExprWith_untemplated {e : Expr} (h : e.Untemplated) : countExprWith template e = 0 := by
  induction e using Expr.children_induct with
  | step e ih =>
      obtain ⟨⟨-, hliterals⟩, hrest⟩ := Expr.worded_iff.mp h
      have hchildren : ∀ child ∈ e.children, countExprWith template child = 0 :=
        fun child hchild => ih child hchild (hrest child hchild)
      cases e with
      | compare left comparisons pos =>
          obtain ⟨hleft, hlinks⟩ := List.forall_mem_cons.mp hchildren
          rw [countExprWith, hleft, countLinksWith_eq_zero hlinks]
      | slice object start stop step pos =>
          simp only [Expr.children, List.forall_mem_cons, List.forall_mem_append] at hchildren
          obtain ⟨hobject, ⟨hstart, hstop⟩, hstep⟩ := hchildren
          rw [countExprWith, hobject, countOptionWith_eq_zero hstart,
            countOptionWith_eq_zero hstop, countOptionWith_eq_zero hstep]
      | call callee args pos | construct callee args pos =>
          obtain ⟨hcallee, hargs⟩ := List.forall_mem_cons.mp hchildren
          rw [countExprWith, hcallee, countExprsWith_eq_zero hargs]
      | list elements pos => exact countExprsWith_eq_zero hchildren
      | dict entries pos => exact countEntriesWith_eq_zero hchildren
      | interpolated segments pos => exact countSegmentsWith_eq_zero hchildren
      | template raw pos => simp [Expr.literals] at hliterals
      | _ => simp_all [countExprWith, Expr.children]

end Count

end Indented

end Diglot
