import Diglot.Proofs.Braced.Blocks

namespace Diglot.Braced

open Token (op word)

section Clauses

-- The comparison of a name with an expression.
def against (op : CompareOp) (target : String) (e : Expr) : Expr :=
  .compare (.var target .start) [⟨op, e⟩] .start

-- Whether something is a range with formulas as its bounds and its step.
def isFormulaRange : Iteration → Bool
  | .range start stop step => start.all isFormula && isFormula stop && step.all isFormula
  | .each _ => false

-- The clauses of a loop over a range, with its bounds and its step lowered.

def rangeInit (target : String) (start : Option Expr) : Stmt :=
  .assign [.var target .start] (some (lowered (start.getD (.number "0" .start)))) (some .letWord)
    .start

-- The test, given how the name is compared with the bound. Where the step has no sign to go by, the
-- test asks for it.
def rangeTest (compared : CompareOp → Expr) : Option Expr → Expr
  | none | some (.number ..) => compared .less
  | some (.unary .negate ..) => compared .greater
  | some step =>
      .conditional (.compare (lowered step) [⟨.greater, .number "0" .start⟩] .start)
        (compared .less) (compared .greater) .start

def rangeUpdate (target : String) : Option Expr → Stmt
  | none => .augAssign (.var target .start) .add (.number "1" .start) .start
  | some (.unary .negate amount _) =>
      .augAssign (.var target .start) .subtract (lowered amount) .start
  | some step => .augAssign (.var target .start) .add (lowered step) .start

end Clauses

section Seized

variable {op other : CompareOp} {target : String} {e left right : Expr} {w : Written} {pos : Pos}

-- What the comparison of a name is read as in front of an expression that is written without brackets:
-- it takes the operand that the expression starts with.
def seized (op : CompareOp) (target : String) : Expr → Expr
  | .logical joint left right pos =>
      .logical joint
        (if precedence left < logicalLevel joint then against op target (lowered left)
        else seized op target left)
        (lowered right) pos
  | .conditional test consequent alternate pos =>
      .conditional
        (if precedence test < Level.disjunction then against op target (lowered test)
        else seized op target test)
        (lowered consequent) (lowered alternate) pos
  | .compare left [⟨other, right⟩] pos =>
      .compare (against op target (lowered left)) [⟨other, lowered right⟩] pos
  | .compare left (⟨other, right⟩ :: next :: rest) pos =>
      (singles pos (lowered right) (next :: rest)).foldl
        (fun left right => .logical .and left right pos)
        (against op target (.compare (lowered left) [⟨other, lowered right⟩] pos))
  | e => against op target (lowered e)

-- The tokens of the comparison of a name with what is written.
abbrev comparedTokens (op : CompareOp) (target : String) (w : Written) : List Token :=
  word target :: .op (compareSymbol op) :: w.tokens

-- What is written behind a comparison is read at a level, up to places as the given expression.
def ReadsBehind (op : CompareOp) (target : String) (w : Written) (level : Nat) (e : Expr) : Prop :=
  ∃ rank value, Reads rank (comparedTokens op target w) value ∧ levelRank level ≤ rank ∧
    value.placeless = e.placeless

theorem placeless_against {other : Expr} (h : e.placeless = other.placeless) :
    (against op target e).placeless = (against op target other).placeless := by
  simp [against, Expr.placeless, linksPlaceless, h]

-- What binds more tightly than comparisons do is compared as a whole.
theorem reads_against (hop : op ∈ [.less, .greater]) (h : Sound w) (hrank : 5 < w.rank) :
    Reads 5 (comparedTokens op target w) (against op target w.value) := by
  rcases mem_pair.mp hop with rfl | rfl
  · exact Reads.compare (show CompareOp.less ∉ _ by decide) (Reads.name target) h.toReads
      (by decide) hrank
  · exact Reads.compare (show CompareOp.greater ∉ _ by decide) (Reads.name target) h.toReads
      (by decide) hrank

theorem readsBehind_tight (hop : op ∈ [.less, .greater]) (h : Sound w) (hrank : 5 < w.rank)
    (hvalue : w.value.placeless = e.placeless) :
    ReadsBehind op target w Level.comparison (against op target e) :=
  ⟨5, _, reads_against hop h hrank, by decide, placeless_against hvalue⟩

theorem ReadsBehind.mono {level looser : Nat} (h : ReadsBehind op target w level e)
    (hle : looser ≤ level) : ReadsBehind op target w looser e := by
  obtain ⟨rank, value, hreads, hrank, hvalue⟩ := h
  exact ⟨rank, value, hreads, Nat.le_trans (levelRank_mono hle) hrank, hvalue⟩

-- In brackets an operand is compared as a whole.
theorem readsBehind_enclose (hop : op ∈ [.less, .greater]) (h : isFormula e = true)
    (hbehind : ReadsBehind op target (written e) (min (precedence e) Level.comparison)
      (seized op target e)) {needed : Nat} (hneeded : needed ≤ Level.comparison) :
    ReadsBehind op target (enclose needed e (written e)) needed
      (if precedence e < needed then against op target (lowered e) else seized op target e) := by
  unfold enclose Written.enclose
  split
  · exact (readsBehind_tight hop (sound_written h).group (by decide : 5 < 14)
      (value_written h)).mono hneeded
  · exact hbehind.mono (by omega)

theorem fits_of_isFormula (h : isFormula e = true) : Fits e (written e) :=
  fits_written e (Expr.all_imp isSpelled_of_isOperator e h)

theorem sound_enclose (h : isFormula e = true) (needed : Nat) :
    Sound (enclose needed e (written e)) ∧ levelRank needed ≤ (enclose needed e (written e)).rank ∧
      (enclose needed e (written e)).value.placeless = (lowered e).placeless := by
  obtain ⟨hsound, hrank⟩ := (fits_of_isFormula h).enclose needed
  exact ⟨hsound, hrank, by rw [Written.value_enclose, value_written h]⟩

-- A conjunction of things in brackets is read behind a comparison as it is read alone.
theorem readsBehind_foldl {first : Written} {pairs : List Written} {value : Expr} {rank : Nat}
    (hfirst : Reads rank (comparedTokens op target first) value) (hrank : 3 ≤ rank)
    (h : ∀ pair ∈ pairs, Sound pair) :
    ∃ rank, 3 ≤ rank ∧
      Reads rank (comparedTokens op target
          (pairs.foldl (fun left right => logical .and left right.group) first))
        ((pairs.map (·.value)).foldl (fun left right => .logical .and left right .start) value) := by
  induction pairs generalizing first value rank with
  | nil => exact ⟨rank, hrank, hfirst⟩
  | cons pair pairs ih =>
      obtain ⟨hpair, hpairs⟩ := List.forall_mem_cons.mp h
      exact ih (Reads.logical hfirst hpair.group.toReads hrank (by decide : 3 < 14))
        (Nat.le_refl 3) hpairs

theorem readsBehind_single (hop : op ∈ [.less, .greater]) (hleft : isFormula left = true)
    (horder : other.isOrder = true) (hright : isFormula right = true) :
    ReadsBehind op target (written (.compare left [⟨other, right⟩] pos)) Level.comparison
      (seized op target (.compare left [⟨other, right⟩] pos)) := by
  obtain ⟨hfirst, hrank, hvalue⟩ := sound_enclose hleft (Level.comparison + 1)
  obtain ⟨hlast, hlastrank, -⟩ := sound_enclose hright (Level.comparison + 1)
  have hranks : levelRank (Level.comparison + 1) = 13 := rfl
  have hother : other ∉ [.isIn, .notIn] ∧ compareRank other ≤ 5 ∧ 4 ≤ compareRank other := by
    cases other <;> first | decide | simp [CompareOp.isOrder] at horder
  have hwritten : written (.compare left [⟨other, right⟩] pos) =
      compare other (enclose (Level.comparison + 1) left (written left))
        (enclose (Level.comparison + 1) right (written right)) := by
    cases other <;> first | rfl | simp [CompareOp.isOrder] at horder
  rw [hwritten]
  refine ⟨_, _, Reads.compare hother.1 (reads_against hop hfirst (by omega)) hlast.toReads
    hother.2.1 (by omega), hother.2.2, ?_⟩
  rw [seized, comparison, Expr.placeless, Expr.placeless, placeless_against hvalue]
  simp [linksPlaceless, value_written hright]

theorem readsBehind_chain (hop : op ∈ [.less, .greater]) {next : Comparison Expr}
    {rest : List (Comparison Expr)}
    (h : isFormula (.compare left (⟨other, right⟩ :: next :: rest) pos) = true)
    (hleft : isFormula left = true) (horder : other.isOrder = true)
    (hright : isFormula right = true)
    (hrest : ∀ link ∈ next :: rest, link.op.isOrder = true ∧ isFormula link.right = true) :
    ReadsBehind op target (written (.compare left (⟨other, right⟩ :: next :: rest) pos))
      Level.conjunction (seized op target (.compare left (⟨other, right⟩ :: next :: rest) pos)) := by
  have hspelled := Expr.all_imp isSpelled_of_isOperator _ h
  simp only [Expr.all, isSpelled, Bool.and_eq_true] at hspelled
  obtain ⟨hfirst, hrank, hvalue⟩ := sound_enclose hleft (Level.comparison + 1)
  obtain ⟨hpair, hmore⟩ := List.forall_mem_cons.mp
    (sound_writtenPairs hfirst hrank
      (fun e he => fits_written e (Expr.linksAll_iff.mp hspelled.2 e he)) hspelled.1.1.2)
  have hgroup : Reads 5 (comparedTokens op target _) _ :=
    reads_against hop hpair.1.group (by decide : 5 < 14)
  obtain ⟨rank, hrank, hreads⟩ := readsBehind_foldl hgroup (by decide : 3 ≤ 5)
    fun pair hmem => (hmore pair hmem).1
  refine ⟨rank, _, hreads, hrank, ?_⟩
  have hnext : (enclose (Level.comparison + 1) right (written right)).value.placeless =
      (lowered right).placeless := by rw [Written.value_enclose, value_written hright]
  have hvalues : _ = (singles pos _ _).map _ := value_writtenPairs
    (fun link hlink => ⟨(hrest link hlink).1, value_written (hrest link hlink).2⟩) hnext
  rw [seized]
  refine placeless_foldl_logical (by rwa [List.map_map]) (placeless_against ?_)
  rw [Written.group, value_comparing horder, Expr.placeless, Expr.placeless, hvalue]
  simp [linksPlaceless, value_written hright]

-- The comparison of a name takes the first operand of what is written behind it.
theorem readsBehind_seized (target : String) (hop : op ∈ [.less, .greater])
    (h : isFormula e = true) :
    ReadsBehind op target (written e) (min (precedence e) Level.comparison) (seized op target e) := by
  have htight : ∀ e : Expr, isFormula e = true → Level.comparison < precedence e →
      ReadsBehind op target (written e) (min (precedence e) Level.comparison)
        (against op target (lowered e)) := by
    intro e h hlevel
    have hrank : 5 < (written e).rank := by
      have hlevels : 13 ≤ levelRank (precedence e) := levelRank_mono hlevel
      have hfits := (fits_of_isFormula h).rank
      omega
    exact (readsBehind_tight hop (sound_written h) hrank (value_written h)).mono (Nat.min_le_right _ _)
  have hatom : Level.comparison < Level.atom := by decide
  have hunary : Level.comparison < Level.unary := by decide
  induction e, h using Expr.operator_induct with
  | binary binaryOp left right pos _ _ _ _ h => exact htight _ h hatom
  | unary sign operand pos _ _ h => exact htight _ h hunary
  | number literal pos _ h => exact htight _ h hatom
  | boolean value pos h => exact htight _ h hatom
  | null pos h => exact htight _ h hatom
  | var name pos _ h => exact htight _ h hatom
  | logical joint left right pos hleft hright ihleft _ h =>
      obtain ⟨rank, value, hreads, hrank, hvalue⟩ := readsBehind_enclose hop hleft ihleft
        (show logicalLevel joint ≤ Level.comparison by cases joint <;> decide)
      obtain ⟨hsound, hrightrank, hrightvalue⟩ := sound_enclose hright (logicalLevel joint + 1)
      have hloose : logicalRank joint ≤ levelRank (logicalLevel joint) := by cases joint <;> decide
      have htighter : logicalRank joint < levelRank (logicalLevel joint + 1) := by
        cases joint <;> decide
      refine ⟨_, _, Reads.logical hreads hsound.toReads (by omega) (by omega), ?_, ?_⟩
      · cases joint <;> exact Nat.le_refl _
      · rw [seized, Expr.placeless, Expr.placeless, hvalue, hrightvalue]
  | conditional test consequent alternate pos htest hconsequent halternate ihtest _ _ h =>
      obtain ⟨rank, value, hreads, hrank, hvalue⟩ := readsBehind_enclose hop htest ihtest
        (show Level.disjunction ≤ Level.comparison by decide)
      obtain ⟨hthen, -, hthenvalue⟩ := sound_enclose hconsequent Level.conditional
      obtain ⟨helse, -, helsevalue⟩ := sound_enclose halternate Level.conditional
      refine ⟨_, _, Reads.ternary hreads hthen.toReads helse.toReads hrank, Nat.le_refl 1, ?_⟩
      rw [seized, Expr.placeless, Expr.placeless, hvalue, hthenvalue, helsevalue]
  | compare left comparisons pos hleft _ hne hlinks h =>
      cases comparisons with
      | nil => contradiction
      | cons link rest =>
          obtain ⟨other, right⟩ := link
          obtain ⟨⟨horder, hright, -⟩, hrest⟩ := List.forall_mem_cons.mp hlinks
          cases rest with
          | nil => exact (readsBehind_single hop hleft horder hright).mono (Nat.min_le_right _ _)
          | cons next rest =>
              have hlevel : precedence (.compare left (⟨other, right⟩ :: next :: rest) pos) =
                  Level.conjunction := by cases other <;> rfl
              rw [hlevel]
              exact readsBehind_chain hop h hleft horder hright
                fun link hlink => ⟨(hrest link hlink).1, (hrest link hlink).2.1⟩

theorem exists_foldl_logical {exprs : List Expr} (h : exprs ≠ []) (first : Expr) (pos : Pos) :
    ∃ left right, exprs.foldl (fun left right => .logical .and left right pos) first =
      .logical .and left right pos := by
  induction exprs generalizing first with
  | nil => contradiction
  | cons next exprs ih =>
      cases exprs with
      | nil => exact ⟨first, next, rfl⟩
      | cons second exprs => exact ih (List.cons_ne_nil _ _) _

-- The whole of an expression is compared if and only if it binds more tightly than comparisons do.
theorem seized_iff_tight (h : isFormula e = true) :
    (seized op target e).placeless = (against op target (lowered e)).placeless ↔
      Level.comparison < precedence e := by
  have hatom : Level.comparison < Level.atom := by decide
  have hunary : Level.comparison < Level.unary := by decide
  cases e with
  | binary binaryOp left right pos => exact iff_of_true rfl hatom
  | unary sign operand pos => exact iff_of_true rfl hunary
  | number literal pos => exact iff_of_true rfl hatom
  | boolean value pos => exact iff_of_true rfl hatom
  | null pos => exact iff_of_true rfl hatom
  | var name pos => exact iff_of_true rfl hatom
  | logical joint left right pos =>
      refine iff_of_false (by simp [seized, against, Expr.placeless]) ?_
      cases joint with
      | and => exact (by decide : ¬ Level.comparison < Level.conjunction)
      | or => exact (by decide : ¬ Level.comparison < Level.disjunction)
  | conditional test consequent alternate pos =>
      refine iff_of_false (by simp [seized, against, Expr.placeless]) ?_
      exact (by decide : ¬ Level.comparison < Level.conditional)
  | compare left comparisons pos =>
      simp only [isFormula, Expr.all, Expr.isOperator, Bool.and_eq_true, Bool.not_eq_true',
        List.isEmpty_eq_false_iff, List.all_eq_true] at h
      cases comparisons with
      | nil => simp at h
      | cons link rest =>
          obtain ⟨other, right⟩ := link
          cases rest with
          | nil =>
              have horder := h.1.1.2 _ (List.mem_singleton_self _)
              have hlevel : precedence (.compare left [⟨other, right⟩] pos) = Level.comparison := by
                cases other <;> first | rfl | simp [CompareOp.isOrder] at horder
              refine iff_of_false (by simp [seized, against, Expr.placeless]) ?_
              rw [hlevel]
              exact Nat.lt_irrefl _
          | cons next rest =>
              have hlevel : precedence (.compare left (⟨other, right⟩ :: next :: rest) pos) =
                  Level.conjunction := by cases other <;> rfl
              refine iff_of_false ?_ (by rw [hlevel]; decide)
              obtain ⟨first, last, hfold⟩ := exists_foldl_logical
                (show singles pos (lowered right) (next :: rest) ≠ [] by simp [singles])
                (against op target (.compare (lowered left) [⟨other, lowered right⟩] pos)) pos
              rw [seized, hfold]
              simp [against, Expr.placeless]
  | _ => simp [isFormula, Expr.all, Expr.isOperator] at h

theorem rangeTest_iff_tight {stop : Expr} (h : isFormula stop = true) (step : Option Expr) :
    (rangeTest (seized · target stop) step).placeless =
        (rangeTest (against · target (lowered stop)) step).placeless ↔
      Level.comparison < precedence stop := by
  unfold rangeTest
  split
  · exact seized_iff_tight h
  · exact seized_iff_tight h
  · exact seized_iff_tight h
  · simp only [Expr.placeless, Expr.conditional.injEq, seized_iff_tight h, and_self, true_and,
      and_true]

end Seized

section Heads

variable {target : String} {start step : Option Expr} {stop : Expr}

-- A comparison in a test, with what it is read as.
theorem sound_behind (htarget : isName target = true) {op : CompareOp}
    (hop : op ∈ [.less, .greater]) (h : isFormula stop = true) :
    ∃ rank value, Sound ⟨(compare op (.ofName target) (written stop)).text,
        comparedTokens op target (written stop), value, rank⟩ ∧
      value.placeless = (seized op target stop).placeless := by
  obtain ⟨rank, value, hreads, -, hvalue⟩ := readsBehind_seized target hop h
  have hmem : compareSymbol op ∈ operators := by
    rcases mem_pair.mp hop with rfl | rfl <;> decide
  have hlexes := Scanner.LexesAs.join (lexesAs_name htarget) (sound_written h).lexes
    (joins_operator _ hmem)
  refine ⟨rank, value, ⟨hreads, hlexes, ?_⟩, hvalue⟩
  have hopens := opens_of_isWord (Bool.and_eq_true_iff.mp htarget).1 rank
  simp only [compare, Written.infixed, Written.ofName, Written.leaf]
  cases htext : target.toList with
  | nil => simp [htext] at hopens
  | cons c more => simpa [htext] using hopens

theorem head_counting {test : Written} {text : List Char} {tokens : List Token} {update : Stmt}
    (htarget : isName target = true) (hstart : start.all isFormula = true) (htest : Sound test)
    (hupdate : Inline text tokens update) :
    ∃ tokens init, Head (clausesText target (written (start.getD (.number "0" .start))).text
        test.text text) tokens (clausesLoop (some init) (some test.value) (some update)) ∧
      init.placeless = (rangeInit target start).placeless := by
  have hformula : isFormula (start.getD (.number "0" .start)) = true := by
    cases start with
    | none => rfl
    | some start => exact hstart
  have hhead := head_clauses htarget (sound_written hformula) htest hupdate
  refine ⟨_, _, hhead, ?_⟩
  simp [rangeInit, Stmt.placeless, placeless_expr, value_written hformula]

-- Counting a name by an amount.
theorem inline_amount (htarget : isName target = true) {change : BinaryOp} {amount : Expr}
    (hchange : change ≠ .floorDivide) (h : isFormula amount = true) (needed : Nat) :
    ∃ tokens update,
      Inline (augmentedText target change (enclose needed amount (written amount))) tokens update ∧
        update.placeless =
          (Stmt.augAssign (.var target .start) change (lowered amount) .start).placeless := by
  obtain ⟨hsound, -, hvalue⟩ := sound_enclose h needed
  have hsimple : Simple (.ofName target) := ⟨sound_name htarget, rfl⟩
  refine ⟨_, _, inline_augmented hsimple rfl hsound hchange, ?_⟩
  simp only [Stmt.placeless, hvalue]
  rfl

theorem text_rangeSigned (target : String) (start : Option Expr) (stop step : Expr) :
    ("let " ++ target ++ " = " ++ writeOr false "0" start ++ "; " ++
        writeOperand false (Level.comparison + 1) step ++ " > 0 ? " ++ target ++ " < " ++
        writeExpr false stop ++ " : " ++ target ++ " > " ++ writeExpr false stop ++ "; " ++ target ++
        " += " ++ writeOperand false (Level.comparison + 1) step).toList =
      clausesText target (written (start.getD (.number "0" .start))).text
        ((compare .greater (enclose (Level.comparison + 1) step (written step)) (.ofNumber "0")).text ++
          ' ' :: '?' :: ' ' :: ((compare .less (.ofName target) (written stop)).text ++
            ' ' :: ':' :: ' ' :: (compare .greater (.ofName target) (written stop)).text))
        (augmentedText target .add (enclose (Level.comparison + 1) step (written step))) := by
  have hstep : (enclose (Level.comparison + 1) step (written step)).text =
      (writeOperand false (Level.comparison + 1) step).toList :=
    Written.text_enclose (text_written step)
  have hadd : augmentedSymbol .add = "+=" := by decide
  rw [clausesText, ← text_start]
  simp [augmentedText, compare, Written.infixed, Written.ofName, Written.ofNumber, Written.leaf,
    compareSymbol, hstep, hadd, text_written]

-- A step without a known sign: the test asks for it.
theorem head_signed (htarget : isName target = true) (hstart : start.all isFormula = true)
    (hstop : isFormula stop = true) {step : Expr} (hstep : isFormula step = true) :
    ∃ tokens init test update,
      Head ("let " ++ target ++ " = " ++ writeOr false "0" start ++ "; " ++
          writeOperand false (Level.comparison + 1) step ++ " > 0 ? " ++ target ++ " < " ++
          writeExpr false stop ++ " : " ++ target ++ " > " ++ writeExpr false stop ++ "; " ++ target ++
          " += " ++ writeOperand false (Level.comparison + 1) step).toList tokens
        (clausesLoop (some init) (some test) (some update)) ∧
      init.placeless = (rangeInit target start).placeless ∧
      update.placeless =
        (Stmt.augAssign (.var target .start) .add (lowered step) .start).placeless ∧
      test.placeless =
        (Expr.conditional (.compare (lowered step) [⟨.greater, .number "0" .start⟩] .start)
          (seized .less target stop) (seized .greater target stop) .start).placeless := by
  obtain ⟨hsound, hrank, hvalue⟩ := sound_enclose hstep (Level.comparison + 1)
  obtain ⟨_, below, hbelow, hbelowvalue⟩ :=
    sound_behind htarget (show CompareOp.less ∈ _ by decide) hstop
  obtain ⟨_, above, habove, habovevalue⟩ :=
    sound_behind htarget (show CompareOp.greater ∈ _ by decide) hstop
  have hzero : Sound (.ofNumber "0") := sound_number (by decide)
  have hlevels : levelRank (Level.comparison + 1) = 13 := rfl
  have hsign := Sound.compare (show CompareOp.greater ∉ _ by decide) hsound hzero
    (show 5 ≤ _ by omega) (by decide)
  obtain ⟨_, update, hupdate, hupdatevalue⟩ := inline_amount htarget
    (show BinaryOp.add ≠ _ by decide) hstep (Level.comparison + 1)
  obtain ⟨tokens, init, hhead, hinit⟩ := head_counting htarget hstart
    (hsign.ternary hbelow habove (by decide : 1 < 5)) hupdate
  rw [text_rangeSigned]
  refine ⟨tokens, init, _, update, hhead, hinit, hupdatevalue, ?_⟩
  simp [ternary, compare, Written.infixed, comparison, Written.ofNumber, Written.leaf,
    Expr.placeless, linksPlaceless, value_written hstep, hbelowvalue, habovevalue]

-- The head of a loop over a range is read as its clauses, with the bound compared as far as the
-- comparison takes it.
theorem head_rangeHead (htarget : isName target = true) (hstart : start.all isFormula = true)
    (hstop : isFormula stop = true) (hstep : step.all isFormula = true) :
    ∃ tokens init test update,
      Head (writeHead false target (.range start stop step)).toList tokens
        (clausesLoop (some init) (some test) (some update)) ∧
      init.placeless = (rangeInit target start).placeless ∧
      update.placeless = (rangeUpdate target step).placeless ∧
      test.placeless = (rangeTest (seized · target stop) step).placeless := by
  obtain ⟨_, below, hbelow, hbelowvalue⟩ :=
    sound_behind htarget (show CompareOp.less ∈ _ by decide) hstop
  cases step with
  | none =>
      obtain ⟨tokens, init, hhead, hinit⟩ :=
        head_counting htarget hstart hbelow (inline_increment htarget)
      rw [text_range]
      exact ⟨tokens, init, below, _, hhead, hinit, rfl, hbelowvalue⟩
  | some step =>
      have hstep : isFormula step = true := hstep
      have hsigned := head_signed htarget hstart hstop hstep
      cases step with
      | number literal pos =>
          obtain ⟨_, update, hupdate, hupdatevalue⟩ := inline_amount htarget
            (show BinaryOp.add ≠ _ by decide) hstep 0
          obtain ⟨tokens, init, hhead, hinit⟩ := head_counting htarget hstart hbelow hupdate
          rw [text_rangeUp]
          exact ⟨tokens, init, below, update, hhead, hinit, hupdatevalue, hbelowvalue⟩
      | unary sign amount pos =>
          cases sign with
          | negate =>
              have hamount : isFormula amount = true := by
                simpa [isFormula, Expr.all, Expr.isOperator] using hstep
              obtain ⟨_, above, habove, habovevalue⟩ :=
                sound_behind htarget (show CompareOp.greater ∈ _ by decide) hstop
              obtain ⟨_, update, hupdate, hupdatevalue⟩ := inline_amount htarget
                (show BinaryOp.subtract ≠ _ by decide) hamount Level.unary
              obtain ⟨tokens, init, hhead, hinit⟩ := head_counting htarget hstart habove hupdate
              rw [text_rangeDown]
              exact ⟨tokens, init, above, update, hhead, hinit, hupdatevalue, habovevalue⟩
          | _ => exact hsigned
      | _ => exact hsigned

end Heads

section Loops

variable {width : Nat} {target : String} {start step : Option Expr} {stop : Expr} {body : List Stmt}
  {pos : Pos}

theorem lines_range (hbody : ∀ stmt ∈ body, stmt.all isStructured = true) :
    write .javaScript ⟨[.forIn target (.range start stop step) body pos], pos⟩ =
      .line ("for (" ++ writeHead false target (.range start stop step) ++ ") \x7b") ++
        (writeStmts .toplevel body).indent ++ .line "\x7d" := by
  have hnone : assignedIn [.forIn target (.range start stop step) body pos] = [] := by
    rw [assignedIn, assigned, assignedIn_eq_nil fun stmt hstmt => assigned_eq_nil stmt (hbody stmt hstmt)]
    rfl
  change declareLocals [.forIn target (.range start stop step) body pos] [] ++
    (_ ++ Fragment.empty) = _
  rw [declareLocals, hoisted, hnone, Fragment.append_empty]
  exact Fragment.empty_append _

-- A loop over a range is read back as the loop of its clauses.
theorem exists_clauses_range (width : Nat) (pos : Pos) (htarget : isName target = true)
    (hrange : isFormulaRange (.range start stop step) = true)
    (hbody : ∀ stmt ∈ body, stmt.all isStructured = true) :
    ∃ found init test update values,
      Diglot.parse .javaScript ((write .javaScript
        ⟨[.forIn target (.range start stop step) body pos], pos⟩).render width) = .ok found ∧
      placeless found.body = placeless [clausesLoop (some init) (some test) (some update) values] ∧
      placeless values = placeless (loweredStmts body) ∧
      placeless init = placeless (rangeInit target start) ∧
      placeless update = placeless (rangeUpdate target step) ∧
      placeless test = placeless (rangeTest (seized · target stop) step) := by
  simp only [isFormulaRange, Bool.and_eq_true] at hrange
  obtain ⟨⟨hstart, hstop⟩, hstep⟩ := hrange
  obtain ⟨tokens, init, test, update, hhead, hinit, hupdate, htest⟩ :=
    head_rangeHead htarget hstart hstop hstep
  obtain ⟨values, hsays, hvalues⟩ : ∃ values, Says width _ values ∧ _ :=
    says_stmts fun stmt hstmt => saysLowered stmt (hbody stmt hstmt)
  obtain ⟨found, hparse, hfound⟩ := parse_of_says (says_for hhead (text_for _) hsays)
  rw [stmtsPlaceless_eq, stmtsPlaceless_eq] at hvalues
  rw [← lines_range hbody] at hparse
  exact ⟨found, init, test, update, values, hparse, hfound, hvalues, hinit, hupdate, htest⟩

-- The clauses of the loop assign the whole start and add or take away the whole step. The test
-- compares with the whole bound if and only if the bound binds more tightly than comparisons do.
theorem parse_render_range (width : Nat) (pos : Pos) (htarget : isName target = true)
    (hrange : isFormulaRange (.range start stop step) = true)
    (hbody : ∀ stmt ∈ body, stmt.all isStructured = true) :
    ∃ found init test update values,
      Diglot.parse .javaScript ((write .javaScript
        ⟨[.forIn target (.range start stop step) body pos], pos⟩).render width) = .ok found ∧
      placeless found.body = placeless [clausesLoop (some init) (some test) (some update) values] ∧
      placeless values = placeless (loweredStmts body) ∧
      placeless init = placeless (rangeInit target start) ∧
      placeless update = placeless (rangeUpdate target step) ∧
      (placeless test = placeless (rangeTest (against · target (lowered stop)) step) ↔
        Level.comparison < precedence stop) := by
  obtain ⟨found, init, test, update, values, hparse, hfound, hvalues, hinit, hupdate, htest⟩ :=
    exists_clauses_range width pos htarget hrange hbody
  refine ⟨found, init, test, update, values, hparse, hfound, hvalues, hinit, hupdate, ?_⟩
  simp only [isFormulaRange, Bool.and_eq_true] at hrange
  rw [htest]
  exact rangeTest_iff_tight hrange.1.2 step

-- `range(a or 1, -b // 2, c if a else -1)`, whose step has no sign to go by.
def choiceRange : Iteration :=
  .range (some (.logical .or (.var "a" .start) (.number "1" .start) .start))
    (.binary .floorDivide (.unary .negate (.var "b" .start) .start) (.number "2" .start) .start)
    (some (.conditional (.var "a" .start) (.var "c" .start)
      (.unary .negate (.number "1" .start) .start) .start))

theorem parse_render_choiceRange :
    ∃ found init test update values,
      Diglot.parse .javaScript ((write .javaScript
        ⟨[.forIn "i" choiceRange [.breaks .start] .start], .start⟩).render 2) = .ok found ∧
      placeless found.body = placeless [clausesLoop (some init) (some test) (some update) values] ∧
      placeless values = [.breaks .start] ∧
      placeless test = .conditional
        (.compare (.conditional (.var "a" .start) (.var "c" .start)
          (.unary .negate (.number "1" .start) .start) .start) [⟨.greater, .number "0" .start⟩] .start)
        (against .less "i" (.call (.member (.var "Math" .start) "floor" .start)
          [.binary .divide (.unary .negate (.var "b" .start) .start) (.number "2" .start) .start] .start))
        (against .greater "i" (.call (.member (.var "Math" .start) "floor" .start)
          [.binary .divide (.unary .negate (.var "b" .start) .start) (.number "2" .start) .start] .start))
        .start := by
  have hrange : isFormulaRange choiceRange = true := by decide
  obtain ⟨found, init, test, update, values, hparse, hfound, hvalues, -, -, htest⟩ :=
    parse_render_range 2 .start (show isName "i" = true by decide) hrange
      (show ∀ stmt ∈ [Stmt.breaks .start], stmt.all isStructured = true by decide)
  exact ⟨found, init, test, update, values, hparse, hfound, hvalues, htest.mpr (by decide)⟩

-- Of a bound that is a conjunction, the test takes the first operand only.
theorem transpile_conjoinedBound :
    (transpile .default .pythonScript "for i in range(a and b):\n    pass\n").toOption =
        some "for (let i = 0; i < a && b; i++) \x7b\n\x7d\n" ∧
      ∃ found init test update,
        Diglot.parse .javaScript "for (let i = 0; i < a && b; i++) \x7b\n\x7d\n" = .ok found ∧
        placeless found.body = placeless [clausesLoop (some init) (some test) (some update) []] ∧
        placeless test = .logical .and (against .less "i" (.var "a" .start)) (.var "b" .start) .start ∧
        placeless test ≠
          against .less "i" (.logical .and (.var "a" .start) (.var "b" .start) .start) := by
  refine ⟨by decide +kernel, ?_⟩
  have hrange : isFormulaRange
      (.range none (.logical .and (.var "a" .start) (.var "b" .start) .start) none) = true := by decide
  obtain ⟨found, init, test, update, values, hparse, hfound, hvalues, -, -, htest⟩ :=
    exists_clauses_range 4 .start (show isName "i" = true by decide) hrange
      (show ∀ stmt ∈ [Stmt.pass .start], stmt.all isStructured = true by decide)
  obtain rfl : values = [] := List.map_eq_nil_iff.mp hvalues
  have htext : (write .javaScript ⟨[.forIn "i"
      (.range none (.logical .and (.var "a" .start) (.var "b" .start) .start) none) [.pass .start]
        .start], .start⟩).render 4 = "for (let i = 0; i < a && b; i++) \x7b\n\x7d\n" := by
    decide +kernel
  rw [htext] at hparse
  refine ⟨found, init, test, update, hparse, hfound, htest, ?_⟩
  rw [htest]
  exact fun h => by cases h

end Loops

end Diglot.Braced
