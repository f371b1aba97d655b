import Diglot.Proofs.Shapes

namespace Diglot.Indented

theorem var_placeless (e : Expr) : e.placeless.var? = e.var? := by
  cases e <;> rfl

-- The calls that are written as operators are told by the name of the member and by how many
-- arguments there are, and a floor by its argument.
theorem precedence_placeless (e : Expr) : precedence e.placeless = precedence e := by
  cases e with
  | unary op operand pos => cases op <;> rfl
  | logical op left right pos => cases op <;> rfl
  | call callee args pos =>
      cases callee with
      | member object name pos =>
          by_cases hincludes : name = "includes"
          · subst hincludes
            rcases args with _ | ⟨first, _ | ⟨second, rest⟩⟩ <;> rfl
          · by_cases hfloor : name = "floor"
            · subst hfloor
              rcases args with _ | ⟨first, _ | ⟨second, rest⟩⟩
              · rfl
              · cases first with
                | binary op left right pos =>
                    cases op <;> simp [Expr.placeless, precedence, exprsPlaceless, var_placeless]
                | _ => rfl
              · simp [Expr.placeless, precedence, exprsPlaceless]
            · simp [Expr.placeless, precedence, hincludes, hfloor]
      | _ => rfl
  | _ => rfl

@[simp]
theorem wrap_placeless (needed : Nat) (e : Expr) (text : String) :
    wrap needed e.placeless text = wrap needed e text := by
  simp only [wrap, Expr.wrap, precedence_placeless]

section Text

variable {template other : String → String} {e : Expr}

-- Two ways to write templates give one text for an expression and for all expressions in it, the one
-- without their places.
def Agree (template other : String → String) (e : Expr) : Prop :=
  e.all (fun e => writeExprWith template e.placeless == writeExprWith other e) = true

theorem agree_iff :
    Agree template other e ↔ writeExprWith template e.placeless = writeExprWith other e ∧
      ∀ child ∈ e.children, Agree template other child := by
  rw [Agree, Expr.all_iff, beq_iff_eq]
  rfl

theorem Agree.text (h : Agree template other e) :
    writeExprWith template e.placeless = writeExprWith other e := (agree_iff.mp h).1

theorem Agree.child (h : Agree template other e) (child : Expr) (hchild : child ∈ e.children) :
    Agree template other child := (agree_iff.mp h).2 child hchild

theorem writeExprsWith_agree {exprs : List Expr} (h : ∀ e ∈ exprs, Agree template other e) :
    writeExprsWith template (exprsPlaceless exprs) = writeExprsWith other exprs := by
  induction exprs with
  | nil => rfl
  | cons first rest ih =>
      obtain ⟨hfirst, hrest⟩ := List.forall_mem_cons.mp h
      rw [exprsPlaceless, writeExprsWith, writeExprsWith, hfirst.text, ih hrest]

theorem writeOptionWith_agree {expr : Option Expr} (h : ∀ e ∈ expr.toList, Agree template other e) :
    writeOptionWith template (optionPlaceless expr) = writeOptionWith other expr := by
  cases expr with
  | none => rfl
  | some expr => exact (h expr (by simp)).text

theorem writeLinksWith_agree {links : List (Comparison Expr)}
    (h : ∀ e ∈ links.map (·.right), Agree template other e) :
    writeLinksWith template (linksPlaceless links) = writeLinksWith other links := by
  induction links with
  | nil => rfl
  | cons first rest ih =>
      obtain ⟨hfirst, hrest⟩ := List.forall_mem_cons.mp h
      rw [linksPlaceless, writeLinksWith, writeLinksWith, hfirst.text, ih hrest, wrap_placeless]

theorem writeEntriesWith_agree {entries : List (DictEntry Expr)}
    (h : ∀ e ∈ entries.flatMap (·.exprs), Agree template other e) :
    writeEntriesWith template (entriesPlaceless entries) = writeEntriesWith other entries := by
  induction entries with
  | nil => rfl
  | cons first rest ih =>
      rw [List.flatMap_cons, List.forall_mem_append] at h
      obtain ⟨hfirst, hrest⟩ := h
      obtain ⟨key, value⟩ := first
      have hvalue : writeExprWith template value.placeless = writeExprWith other value := by
        cases key <;> exact (hfirst value (by simp [DictEntry.exprs])).text
      cases key with
      | literal text | number text =>
          rw [entriesPlaceless, writeEntriesWith, writeEntriesWith, hvalue, ih hrest]
      | computed key =>
          have hkey := (hfirst key (.head _)).text
          rw [entriesPlaceless, writeEntriesWith, writeEntriesWith, hkey, hvalue, ih hrest]

theorem writeSegmentsWith_agree {segments : List (Segment Expr)}
    (h : ∀ e ∈ segments.filterMap (·.expr?), Agree template other e) :
    writeSegmentsWith template (segmentsPlaceless segments) = writeSegmentsWith other segments := by
  induction segments with
  | nil => rfl
  | cons first rest ih =>
      cases first with
      | text value =>
          rw [segmentsPlaceless, writeSegmentsWith, writeSegmentsWith,
            ih (by simpa [Segment.expr?] using h)]
      | expr value =>
          obtain ⟨hvalue, hrest⟩ := List.forall_mem_cons.mp h
          rw [segmentsPlaceless, writeSegmentsWith, writeSegmentsWith, hvalue.text, ih hrest]

-- A call may be written from the parts of what is called and of its argument.
theorem writeExprWith_call_agree {callee : Expr} {args : List Expr} (pos : Pos)
    (hcallee : Agree template other callee) (hargs : ∀ e ∈ args, Agree template other e) :
    writeExprWith template (Expr.call callee args pos).placeless =
      writeExprWith other (.call callee args pos) := by
  rw [Expr.placeless, writeExprWith.eq_def, writeExprWith.eq_def other]
  simp only [hcallee.text, writeExprsWith_agree hargs, wrap_placeless]
  cases callee with
  | member object name place =>
      have hobject := (hcallee.child object (.head _)).text
      simp only [Expr.placeless, hobject, wrap_placeless, var_placeless]
      rcases args with _ | ⟨first, _ | ⟨second, _ | ⟨third, rest⟩⟩⟩
      · clear hargs hcallee
        simp only [exprsPlaceless]
        split <;> simp_all
      · have hfirst := (hargs first (by simp)).text
        by_cases hincludes : name = "includes"
        · simp [hincludes, exprsPlaceless, hfirst]
        by_cases hfloor : name = "floor"
        · subst hfloor
          cases first with
          | binary op left right pos =>
              have hquotient := hargs _ List.mem_cons_self
              have hleft := (hquotient.child left (.head _)).text
              have hright := (hquotient.child right (.tail _ (.head _))).text
              cases op <;> simp [exprsPlaceless, Expr.placeless, hleft, hright]
          | _ => simp [exprsPlaceless, Expr.placeless]
        simp only [exprsPlaceless]
        clear hargs hcallee
        split <;> simp_all
      · have hfirst := (hargs first (by simp)).text
        have hsecond := (hargs second (by simp)).text
        clear hargs hcallee
        simp only [exprsPlaceless]
        split <;> simp_all
      · clear hargs hcallee
        simp only [exprsPlaceless]
        split <;> simp_all
  | _ => simp only [Expr.placeless]

theorem writeExprWith_not_agree {operand : Expr} (pos : Pos) (h : Agree template other operand) :
    writeExprWith template (Expr.unary .not operand pos).placeless =
      writeExprWith other (.unary .not operand pos) := by
  rw [Expr.placeless, writeExprWith.eq_def, writeExprWith.eq_def other]
  simp only [h.text, wrap_placeless]
  cases operand with
  | call callee args pos =>
      cases callee with
      | member container name place =>
          rcases args with _ | ⟨element, _ | ⟨second, rest⟩⟩
          · simp only [Expr.placeless, exprsPlaceless]
          · have helement := (h.child element (.tail _ (.head _))).text
            have hmember := h.child (.member container name place) (.head _)
            have hcontainer := (hmember.child container (.head _)).text
            simp [Expr.placeless, exprsPlaceless, helement, hcontainer]
          · simp only [Expr.placeless, exprsPlaceless]
      | _ => simp only [Expr.placeless]
  | _ => simp only [Expr.placeless]

-- The text of an expression does not say where its parts stood, and the way to write templates shows
-- in nothing but the templates.
theorem agree_of_worded {word : String → Bool} {literal : TokenKind × String → Bool}
    (htemplate : ∀ raw, literal (.template, raw) = true → template raw = other raw)
    (h : e.Worded word literal) : Agree template other e := by
  induction e using Expr.children_induct with
  | step e ih =>
      obtain ⟨⟨-, hliterals⟩, hrest⟩ := Expr.worded_iff.mp h
      have hchildren : ∀ child ∈ e.children, Agree template other child :=
        fun child hchild => ih child hchild (hrest child hchild)
      refine agree_iff.mpr ⟨?_, hchildren⟩
      cases e with
      | binary op left right pos | logical op left right pos =>
          have hleft := (hchildren left (.head _)).text
          have hright := (hchildren right (.tail _ (.head _))).text
          cases op <;> simp only [Expr.placeless, writeExprWith, wrap_placeless, hleft, hright]
      | membership left right negated pos | index left right pos =>
          have hleft := (hchildren left (.head _)).text
          have hright := (hchildren right (.tail _ (.head _))).text
          simp only [Expr.placeless, writeExprWith, wrap_placeless, hleft, hright]
      | unary op operand pos =>
          have hoperand := hchildren operand (.head _)
          cases op with
          | negate | plus => simp only [Expr.placeless, writeExprWith, wrap_placeless, hoperand.text]
          | not => exact writeExprWith_not_agree pos hoperand
      | compare left comparisons pos =>
          obtain ⟨hleft, hlinks⟩ := List.forall_mem_cons.mp hchildren
          simp only [Expr.placeless, writeExprWith, wrap_placeless, hleft.text,
            writeLinksWith_agree hlinks]
      | conditional test consequent alternate pos =>
          have htest := (hchildren test (.head _)).text
          have hconsequent := (hchildren consequent (.tail _ (.head _))).text
          have halternate := (hchildren alternate (.tail _ (.tail _ (.head _)))).text
          simp only [Expr.placeless, writeExprWith, wrap_placeless, htest, hconsequent, halternate]
      | slice object start stop step pos =>
          simp only [Expr.children, List.forall_mem_cons, List.forall_mem_append] at hchildren
          obtain ⟨hobject, ⟨hstart, hstop⟩, hstep⟩ := hchildren
          have hobject := hobject.text
          have hstart := writeOptionWith_agree hstart
          have hstop := writeOptionWith_agree hstop
          have hstep := writeOptionWith_agree hstep
          cases step <;>
            simp_all only [Expr.placeless, writeExprWith, wrap_placeless, writeOptionWith,
              optionPlaceless]
      | member object name pos =>
          have hobject := (hchildren object (.head _)).text
          rw [Expr.placeless, writeExprWith.eq_def, writeExprWith.eq_def other]
          simp only [hobject, wrap_placeless]
          cases object <;> simp only [Expr.placeless]
      | call callee args pos =>
          obtain ⟨hcallee, hargs⟩ := List.forall_mem_cons.mp hchildren
          exact writeExprWith_call_agree pos hcallee hargs
      | construct callee args pos =>
          obtain ⟨hcallee, hargs⟩ := List.forall_mem_cons.mp hchildren
          simp only [Expr.placeless, writeExprWith, wrap_placeless, hcallee.text,
            writeExprsWith_agree hargs]
      | list elements pos =>
          rw [Expr.children] at hchildren
          simp only [Expr.placeless, writeExprWith, writeExprsWith_agree hchildren]
      | dict entries pos =>
          rw [Expr.children] at hchildren
          simp only [Expr.placeless, writeExprWith, writeEntriesWith_agree hchildren]
      | interpolated segments pos =>
          rw [Expr.children] at hchildren
          simp only [Expr.placeless, writeExprWith, writeSegmentsWith_agree hchildren]
      | template raw pos => exact htemplate raw (hliterals _ (.head _))
      | _ => rfl

theorem agree_self (template : String → String) (e : Expr) : Agree template template e := by
  have hworded : e.Worded (fun _ => true) fun _ => true :=
    Expr.all_of_forall (fun e => by simp [Expr.isWorded]) e
  exact agree_of_worded (fun _ _ => rfl) hworded

theorem agree_of_untemplated (template other : String → String) (h : e.Untemplated) :
    Agree template other e := agree_of_worded (by simp) h

end Text

theorem writeSegmentsWith_placeless (template : String → String) (segments : List (Segment Expr)) :
    writeSegmentsWith template (segmentsPlaceless segments) = writeSegmentsWith template segments :=
  writeSegmentsWith_agree fun e _ => agree_self template e

theorem writeExpr_placeless (e : Expr) : writeExpr e.placeless = writeExpr e :=
  (agree_self writeTemplate e).text

-- Without templates all ways to write them give one text.

theorem writeExprWith_untemplated (template other : String → String) {e : Expr}
    (h : e.Untemplated) : writeExprWith template e = writeExprWith other e :=
  (agree_self template e).text.symm.trans (agree_of_untemplated template other h).text

theorem writeSegmentsWith_untemplated (template other : String → String)
    {segments : List (Segment Expr)} (h : ∀ e ∈ segments.filterMap (·.expr?), e.Untemplated) :
    writeSegmentsWith template segments = writeSegmentsWith other segments :=
  (writeSegmentsWith_placeless template segments).symm.trans
    (writeSegmentsWith_agree fun e he => agree_of_untemplated template other (h e he))

end Diglot.Indented
