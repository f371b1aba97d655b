import Diglot.Proofs.Behaviour
import Diglot.Transpile

namespace Diglot

-- The numbers that variables and expressions stand for in a state.
structure Numbers (σ : Type) where
  read : String → σ → Int
  write : String → Int → σ → σ
  value : Expr → σ → Int
  read_write : ∀ name number s, read name (write name number s) = number
  value_var : ∀ name pos s, value (.var name pos) s = read name s
  value_zero : ∀ pos s, value (.number "0" pos) s = 0
  value_one : ∀ pos s, value (.number "1" pos) s = 1
  value_negate : ∀ e pos s, value (.unary .negate e pos) s = -value e s

-- What is left of a range of numbers.
structure Span where
  next : Int
  stop : Int
  step : Int

-- Whether a range goes on. One whose step is zero does not.
def Span.goesOn (span : Span) : Bool :=
  if 0 < span.step then span.next < span.stop else span.step < 0 && span.stop < span.next

theorem Span.goesOn_pos (next stop : Int) {step : Int} (h : 0 < step) :
    Span.goesOn ⟨next, stop, step⟩ = decide (next < stop) := if_pos h

theorem Span.goesOn_neg (next stop : Int) {amount : Int} (h : 0 < amount) :
    Span.goesOn ⟨next, stop, -amount⟩ = decide (next > stop) := by
  have hneg : ¬ 0 < -amount := by omega
  have hlt : decide (-amount < 0) = true := decide_eq_true (by omega)
  rw [Span.goesOn, if_neg hneg, hlt, Bool.true_and]

namespace Interpretation

variable {σ ι : Type}

-- Numbers are counted and compared, a range is looked at once, and `other` says the rest.
def counting (n : Numbers σ) (other : Interpretation σ ι) : Interpretation σ (Span ⊕ ι) where
  act
    | .assign [.var name _] (some value) _ _, s => n.write name (n.value value s) s
    | .augAssign (.var name _) .add amount _, s =>
        n.write name (n.read name s + n.value amount s) s
    | .augAssign (.var name _) .subtract amount _, s =>
        n.write name (n.read name s - n.value amount s) s
    | stmt, s => other.act stmt s
  ask
    | .compare left [⟨.less, right⟩] _, s => (n.value left s < n.value right s, s)
    | .compare left [⟨.greater, right⟩] _, s => (n.value left s > n.value right s, s)
    | condition, s => other.ask condition s
  enter
    | .range start stop step, s =>
        (.inl ⟨start.elim 0 (n.value · s), n.value stop s, step.elim 1 (n.value · s)⟩, s)
    | iteration, s => ((other.enter iteration s).map .inr id)
  draw
    | target, .inl span, s =>
        if span.goesOn then
          (some (.inl { span with next := span.next + span.step }), n.write target span.next s)
        else (none, s)
    | target, .inr left, s => (other.draw target left s).map (Option.map .inr) id
  give := other.give

end Interpretation

namespace Braced

open Behaviour

variable {σ ι : Type} {n : Numbers σ} {other : Interpretation σ ι} {target : String}

section Headers

theorem exists_of_initialised? {init : Stmt} {first : Expr}
    (h : initialised? init = some (target, first)) :
    ∃ p declaration q, init = .assign [.var target p] (some first) declaration q := by
  unfold initialised? at h
  split at h
  · rename_i found value declaration q
    cases found with
    | var name p =>
        cases h
        exact ⟨p, declaration, q, rfl⟩
    | _ => cases h
  · cases h

theorem exists_of_bounded? {test stop : Expr} {compared : CompareOp}
    (h : bounded? target test = some (compared, stop)) :
    ∃ p q, test = .compare (.var target p) [⟨compared, stop⟩] q := by
  unfold bounded? at h
  split at h
  · rename_i left op right q
    split at h
    · rename_i hleft
      cases left with
      | var name p =>
          cases hleft
          cases h
          exact ⟨p, q, rfl⟩
      | _ => cases hleft
    · cases h
  · cases h

theorem exists_of_changed? {update : Stmt} {op : BinaryOp} {amount : Expr}
    (h : changed? target update = some (op, amount)) :
    ∃ p q, update = .augAssign (.var target p) op amount q := by
  unfold changed? at h
  split at h
  · rename_i changed op amount q
    split at h
    · rename_i hchanged
      cases changed with
      | var name p =>
          cases hchanged
          cases h
          exact ⟨p, q, rfl⟩
      | _ => cases hchanged
    · cases h
  · cases h

-- The clauses of a loop that counts.
theorem of_countingLoop? {init update : Option Stmt} {test : Option Expr} {iteration : Iteration}
    (h : countingLoop? init test update = some (target, iteration)) :
    ∃ first declaration compared stop op amount step, ∃ p q r u v w : Pos,
      init = some (.assign [.var target p] (some first) declaration q) ∧
      test = some (.compare (.var target r) [⟨compared, stop⟩] u) ∧
      update = some (.augAssign (.var target v) op amount w) ∧
      step? compared op amount = some step ∧
      iteration =
        .range (if first.isNumber "0" && step.isNone then none else some first) stop step := by
  simp only [countingLoop?, Option.bind_eq_bind, Option.bind_eq_some_iff, Option.pure_def,
    Option.some.injEq, Prod.exists, Prod.mk.injEq] at h
  obtain ⟨init, rfl, name, first, hinit, test, rfl, compared, stop, htest, update, rfl, op, amount,
    hupdate, step, hstep, rfl, rfl⟩ := h
  obtain ⟨p, declaration, q, rfl⟩ := exists_of_initialised? hinit
  obtain ⟨r, u, rfl⟩ := exists_of_bounded? htest
  obtain ⟨v, w, rfl⟩ := exists_of_changed? hupdate
  exact ⟨first, declaration, compared, stop, op, amount, step, p, q, r, u, v, w, rfl, rfl, rfl,
    hstep, rfl⟩

end Headers

section Rounds

variable {i : Interpretation σ (Span ⊕ ι)} {test : Expr} {update : Stmt} {body : Behaviour σ}
  {stop step : Int}

-- A loop of three clauses and a loop over a range start their rounds in the same states, as long as
-- the clauses do what the range does.
theorem loop_iff_span (Keeps : σ → Prop)
    (hdraw : ∀ span s, i.draw target (.inl span) s = if span.goesOn then
      (some (.inl { span with next := span.next + span.step }), n.write target span.next s)
      else (none, s))
    (hask : ∀ s, Keeps s → ∀ trace answer t, i.asks (some test) s trace answer t ↔
      trace = [.asked test] ∧ answer = Span.goesOn ⟨n.read target s, stop, step⟩ ∧ t = s)
    (hact : ∀ s, Keeps s → ∀ trace t outcome, i.runs update s trace t outcome ↔
      trace = [.did update] ∧ t = n.write target (n.read target s + step) s ∧ outcome = .normal)
    (hwrite : ∀ number s, Keeps s → Keeps (n.write target number s))
    (hbody : ∀ s trace t outcome, body s trace t outcome → Keeps s →
      Keeps t ∧ n.read target t = n.read target s)
    {next : Int} {s : σ} (hs : Keeps s) {starts : List σ} {outcome : Completion} :
    (∃ trace t, i.loop (some test) body (i.runs update) starts (n.write target next s) trace t
      outcome) ↔
      ∃ trace t, Rounds (i.draws target) body skip (.inl ⟨next, stop, step⟩) starts s trace t
        outcome := by
  induction starts generalizing next s with
  | nil =>
      have hkept := hwrite next s hs
      rw [Interpretation.loop, rounds_nil_iff, rounds_nil_iff]
      simp only [Option.isSome_none, hask _ hkept, n.read_write, Interpretation.draws, hdraw]
      cases Span.goesOn ⟨next, stop, step⟩ <;> simp
  | cons start starts ih =>
      have hkept := hwrite next s hs
      -- What follows a round: the update on one side, nothing on the other.
      have hrest : ∀ t, Keeps t → n.read target t = next →
          ((∃ updated u, i.runs update t updated u .normal ∧
            ∃ rest v, i.loop (some test) body (i.runs update) starts u rest v outcome) ↔
          ∃ updated u, skip t updated u .normal ∧ ∃ rest v, Rounds (i.draws target) body skip
            (.inl ⟨next + step, stop, step⟩) starts u rest v outcome) := by
        intro t ht hnext
        constructor
        · rintro ⟨updated, u, hu, hloop⟩
          obtain ⟨-, rfl, -⟩ := (hact t ht _ _ _).mp hu
          rw [hnext] at hloop
          exact ⟨[], t, ⟨rfl, rfl, rfl⟩, (ih ht).mp hloop⟩
        · rintro ⟨updated, u, ⟨-, rfl, -⟩, hspan⟩
          have hloop := (ih ht).mpr hspan
          rw [← hnext] at hloop
          exact ⟨_, _, (hact u ht _ _ _).mpr ⟨rfl, rfl, rfl⟩, hloop⟩
      rw [Interpretation.loop, rounds_cons_iff, rounds_cons_iff]
      simp only [Option.isSome_some, hask _ hkept, n.read_write, Interpretation.draws, hdraw]
      cases Span.goesOn ⟨next, stop, step⟩ with
      | false => simp
      | true =>
          constructor
          · rintro ⟨_, l, ⟨rfl, -, rfl⟩, done, t, left, hround, hbehind⟩
            obtain ⟨ht, hnext⟩ := hbody _ _ _ _ hround hkept
            rw [n.read_write] at hnext
            exact ⟨_, _, ⟨rfl, rfl⟩, done, t, left, hround,
              hbehind.imp_left (And.imp_right (hrest t ht hnext).mp)⟩
          · rintro ⟨_, l, ⟨rfl, hdrawn⟩, done, t, left, hround, hbehind⟩
            cases hdrawn
            obtain ⟨ht, hnext⟩ := hbody _ _ _ _ hround hkept
            rw [n.read_write] at hnext
            exact ⟨_, (), ⟨rfl, rfl, rfl⟩, done, t, left, hround,
              hbehind.imp_left (And.imp_right (hrest t ht hnext).mpr)⟩

end Rounds

section Loops

variable {body : List Stmt} {s t : σ} {trace : List Action} {outcome : Completion}

-- Whether the number of an expression is the same all through a loop: it depends neither on the
-- variable of the loop nor on what its body changes.
structure Steady (n : Numbers σ) (target : String) (body : Behaviour σ) (e : Expr) : Prop where
  write : ∀ number s, n.value e (n.write target number s) = n.value e s
  body : ∀ s trace t outcome, body s trace t outcome → n.value e t = n.value e s

theorem value_start (first : Expr) (step : Option Expr) (s : σ) :
    (if first.isNumber "0" && step.isNone then none else some first).elim 0 (n.value · s) =
      n.value first s := by
  split
  · rename_i hzero
    have hfirst := (Bool.and_eq_true_iff.mp hzero).1
    cases first with
    | number literal pos =>
        obtain rfl : literal = "0" := beq_iff_eq.mp hfirst
        exact (n.value_zero pos s).symm
    | _ => cases hfirst
  · rfl

-- The number that a range steps by.
def stepValue (n : Numbers σ) (step : Option Expr) (s : σ) : Int := step.elim 1 (n.value · s)

theorem stepValue_up (amount : Expr) (s : σ) :
    stepValue n (if amount.isNumber "1" then none else some amount) s = n.value amount s := by
  split
  · rename_i hone
    cases amount with
    | number literal pos =>
        obtain rfl : literal = "1" := beq_iff_eq.mp hone
        exact (n.value_one pos s).symm
    | _ => cases hone
  · rfl

theorem stepValue_down (amount : Expr) (pos : Pos) (s : σ) :
    stepValue n (some (.unary .negate amount pos)) s = -n.value amount s :=
  n.value_negate amount pos s

variable {compared : CompareOp} {op : BinaryOp} {amount : Expr} {step : Option Expr}

-- A loop that counts goes up or down.
theorem step?_cases (h : step? compared op amount = some step) :
    (compared = .less ∧ op = .add ∧ step = if amount.isNumber "1" then none else some amount) ∨
      (compared = .greater ∧ op = .subtract ∧ step = some (.unary .negate amount amount.pos)) := by
  unfold step? at h
  split at h
  · exact .inl ⟨rfl, rfl, (Option.some.inj h).symm⟩
  · exact .inr ⟨rfl, rfl, (Option.some.inj h).symm⟩
  · cases h

theorem stepValue_congr (h : step? compared op amount = some step)
    (hamount : n.value amount t = n.value amount s) : stepValue n step t = stepValue n step s := by
  rcases step?_cases h with ⟨-, -, rfl⟩ | ⟨-, -, rfl⟩
  · rw [stepValue_up, stepValue_up, hamount]
  · rw [stepValue_down, stepValue_down, hamount]

-- The condition of a loop that counts asks whether its range goes on.
theorem asks_counting_iff (h : step? compared op amount = some step) (stop : Expr) (p q : Pos)
    (hamount : 0 < n.value amount s) {answer : Bool} :
    (Interpretation.counting n other).asks (some (.compare (.var target p) [⟨compared, stop⟩] q)) s
      trace answer t ↔
      trace = [.asked (.compare (.var target p) [⟨compared, stop⟩] q)] ∧
        answer = Span.goesOn ⟨n.read target s, n.value stop s, stepValue n step s⟩ ∧ t = s := by
  have hask : (Interpretation.counting n other).ask (.compare (.var target p) [⟨compared, stop⟩] q) s =
      (Span.goesOn ⟨n.read target s, n.value stop s, stepValue n step s⟩, s) := by
    rcases step?_cases h with ⟨rfl, rfl, rfl⟩ | ⟨rfl, rfl, rfl⟩
    · rw [stepValue_up, Span.goesOn_pos _ _ hamount, ← n.value_var target p]
      rfl
    · rw [stepValue_down, Span.goesOn_neg _ _ hamount, ← n.value_var target p]
      rfl
  change _ ∧ (answer, t) = Interpretation.ask _ _ s ↔ _
  rw [hask, Prod.mk.injEq]

-- Its update takes the variable to the next number of its range.
theorem runs_counting_iff (h : step? compared op amount = some step) (p q : Pos) :
    (Interpretation.counting n other).runs (.augAssign (.var target p) op amount q) s trace t
      outcome ↔
      trace = [.did (.augAssign (.var target p) op amount q)] ∧
        t = n.write target (n.read target s + stepValue n step s) s ∧ outcome = .normal := by
  rcases step?_cases h with ⟨-, rfl, rfl⟩ | ⟨-, rfl, rfl⟩
  · rw [stepValue_up]
    rfl
  · rw [stepValue_down, ← Int.sub_eq_add_neg]
    rfl

theorem loopOver_range_iff {start : Option Expr} {stop : Expr} {body : Behaviour σ}
    {starts : List σ} :
    (∃ trace t, (Interpretation.counting n other).loopOver target (.range start stop step) body starts
      s trace t outcome) ↔
      ∃ trace t, Rounds ((Interpretation.counting n other).draws target) body skip
        (.inl ⟨start.elim 0 (n.value · s), n.value stop s, stepValue n step s⟩) starts s trace t
        outcome := by
  constructor
  · rintro ⟨_, t, rest, rfl, h⟩
    exact ⟨rest, t, h⟩
  · rintro ⟨trace, t, h⟩
    exact ⟨_, t, trace, rfl, h⟩

-- A loop that is recognized as one over a range runs its body in the same states as that one, if its
-- body leaves the variable, the bound and the amount alone and the amount is positive.
theorem countingLoop_starts {i : Interpretation σ (Span ⊕ ι)} (hi : i = .counting n other)
    {init update : Option Stmt} {test : Option Expr} {start step : Option Expr} {stop : Expr}
    (h : countingLoop? init test update = some (target, .range start stop step))
    {moved amount : Expr} {op : BinaryOp} {pos : Pos}
    (hupdate : update = some (.augAssign moved op amount pos))
    (hstop : Steady n target (i.runsAll body) stop)
    (hamount : Steady n target (i.runsAll body) amount)
    (htarget : ∀ s trace t outcome, i.runsAll body s trace t outcome →
      n.read target t = n.read target s)
    (s : σ) (hpositive : 0 < n.value amount s) (starts : List σ) (outcome : Completion) :
    (∃ trace t, i.loopClauses (i.runsClause init) test (i.runsClause update) (i.runsAll body) starts s
      trace t outcome) ↔
      ∃ trace t, i.loopOver target (.range start stop step) (i.runsAll body) starts s trace t
        outcome := by
  subst hi
  obtain ⟨first, declaration, compared, stop, op, amount, step, p, q, r, u, v, w, rfl, rfl, rfl,
    hstep, hrange⟩ := of_countingLoop? h
  cases hupdate
  cases hrange
  -- All through the loop, the bound and the amount have the numbers that they have in front of it.
  let Keeps (t : σ) := n.value stop t = n.value stop s ∧ n.value amount t = n.value amount s
  have hwrite : ∀ number t, Keeps t → Keeps (n.write target number t) := fun number t ht =>
    ⟨(hstop.write number t).trans ht.1, (hamount.write number t).trans ht.2⟩
  have hbody : ∀ t trace t' outcome, (Interpretation.counting n other).runsAll body t trace t'
      outcome → Keeps t → Keeps t' ∧ n.read target t' = n.read target t :=
    fun t trace t' outcome hrun ht =>
      ⟨⟨(hstop.body _ _ _ _ hrun).trans ht.1, (hamount.body _ _ _ _ hrun).trans ht.2⟩,
        htarget _ _ _ _ hrun⟩
  rw [loopOver_range_iff, value_start]
  refine seq_action_iff.trans (loop_iff_span Keeps (fun _ _ => rfl) ?_ ?_ hwrite hbody ⟨rfl, rfl⟩)
  · rintro t ⟨ht, hsame⟩ trace answer t'
    rw [← ht, ← stepValue_congr hstep hsame]
    exact asks_counting_iff hstep stop r u (hsame ▸ hpositive)
  · rintro t ⟨-, hsame⟩ trace t' outcome
    rw [← stepValue_congr hstep hsame]
    exact runs_counting_iff hstep v pos

-- The number that an expression stands for where variables stand for numbers.
def numberOf (s : String → Int) : Expr → Int
  | .number literal _ => literal.toList.foldl (fun number c => 10 * number + (c.toNat - 48)) 0
  | .var name _ => s name
  | .unary .negate operand _ => -numberOf s operand
  | _ => 0

-- Variables that stand for numbers.
def numbered : Numbers (String → Int) where
  read name s := s name
  write name number s := fun found => if found = name then number else s found
  value e s := numberOf s e
  read_write _ _ _ := if_pos rfl
  value_var _ _ _ := rfl
  value_zero _ _ := rfl
  value_one _ _ := rfl
  value_negate _ _ _ := rfl

-- Nothing but numbers matters.
def plainly : Interpretation (String → Int) Unit where
  act _ s := s
  ask _ s := (false, s)
  enter _ s := ((), s)
  draw _ _ s := (none, s)
  give _ s := s

-- The clauses `let i = 0; i < 2; i++`.
def fromZero : Option Stmt :=
  some (.assign [.var "i" .start] (some (.number "0" .start)) (some .letWord) .start)

def belowTwo : Option Expr :=
  some (.compare (.var "i" .start) [⟨.less, .number "2" .start⟩] .start)

def countOn : Stmt := .augAssign (.var "i" .start) .add (.number "1" .start) .start

-- A body that adds up the numbers that a loop counts through leaves them alone.
theorem countingLoop_starts_sum :
    let i := Interpretation.counting numbered plainly
    let body : List Stmt := [.augAssign (.var "sum" .start) .add (.var "i" .start) .start]
    ∀ starts outcome, (∃ trace t, i.loopClauses (i.runsClause fromZero) belowTwo
      (i.runsClause (some countOn)) (i.runsAll body) starts (fun _ => 0) trace t outcome) ↔
      ∃ trace t, i.loopOver "i" (.range none (.number "2" .start) none) (i.runsAll body) starts
        (fun _ => 0) trace t outcome := by
  intro i body starts outcome
  have hsteady : ∀ literal pos, Steady numbered "i" (i.runsAll body) (.number literal pos) :=
    fun _ _ => ⟨fun _ _ => rfl, fun _ _ _ _ _ => rfl⟩
  refine countingLoop_starts rfl rfl rfl (hsteady _ _) (hsteady _ _) ?_ _ (by decide) starts outcome
  intro s trace t outcome hbody
  rw [Interpretation.runsAll_singleton] at hbody
  obtain ⟨-, rfl, -⟩ := hbody
  rfl

-- A loop whose body counts too is still taken for one over a range: it has one round, and the loop
-- over the range has two.
theorem countingLoop_starts_moved :
    let i := Interpretation.counting numbered plainly
    let start := numbered.write "i" 0 fun _ => 0
    (transpile .default .javaScript "for (let i = 0; i < 2; i++) \x7b i += 1; \x7d").toOption =
      some "for i in range(2):\n    i += 1\n" ∧
    countingLoop? fromZero belowTwo (some countOn) =
      some ("i", .range none (.number "2" .start) none) ∧
    (∃ trace t, i.loopClauses (i.runsClause fromZero) belowTwo (i.runsClause (some countOn))
      (i.runsAll [countOn]) [start] (fun _ => 0) trace t .normal) ∧
    ¬ ∃ trace t, i.loopOver "i" (.range none (.number "2" .start) none) (i.runsAll [countOn]) [start]
      (fun _ => 0) trace t .normal := by
  intro i start
  refine ⟨by decide +kernel, rfl, ?_, ?_⟩
  · have hbody : i.runsAll [countOn] start [.did countOn] (i.act countOn start) .normal := by
      rw [Interpretation.runsAll_singleton]
      exact ⟨rfl, rfl, rfl⟩
    exact seq_action_iff.mpr (rounds_cons_iff.mpr ⟨_, (), ⟨rfl, rfl⟩, _, _, .normal, hbody,
      .inl ⟨rfl, _, _, ⟨rfl, rfl, rfl⟩, rounds_nil_iff.mpr ⟨rfl, _, _, rfl, rfl⟩⟩⟩)
  · rw [loopOver_range_iff, rounds_cons_iff, Interpretation.runsAll_singleton]
    rintro ⟨_, l, ⟨-, hdrawn⟩, _, t, _, ⟨-, rfl, rfl⟩, hbehind⟩
    cases hdrawn
    rcases hbehind with ⟨-, _, u, ⟨-, rfl, -⟩, hrest⟩ | ⟨hleaves, -⟩
    · -- The range is not at its end behind the first round.
      obtain ⟨-, _, v, -, hdrawn⟩ := rounds_nil_iff.mp hrest
      cases hdrawn
    · cases hleaves

end Loops

end Braced

end Diglot
