import Diglot.Syntax.Stmt

namespace Diglot

-- How a run of statements leaves off.
inductive Completion where
  | normal
  | broken
  | continued
  | returned
  deriving DecidableEq, Repr

namespace Completion

-- How a loop leaves off whose body leaves off in a way, if the loop does.
def leaves? : Completion → Option Completion
  | broken => some normal
  | returned => some returned
  | normal | continued => none

end Completion

-- What is done in a run.
inductive Action where
  -- A simple statement.
  | did (stmt : Stmt)
  -- The question whether a condition holds.
  | asked (condition : Expr)
  -- The start of a loop over something, and the question for the next element.
  | entered (iteration : Iteration)
  | drew (target : String)
  -- The value that is returned.
  | gave (value : Option Expr)

-- The runs of statements from one state to another, with the actions in their order.
abbrev Behaviour (σ : Type) := σ → List Action → σ → Completion → Prop

namespace Behaviour

variable {σ κ : Type} {p q r u : Behaviour σ}

-- Doing nothing and leaving off in the given way.
def leave (outcome : Completion) : Behaviour σ :=
  fun s trace t found => trace = [] ∧ t = s ∧ found = outcome

def skip : Behaviour σ := leave .normal

-- One action that changes the state.
def action (what : Action) (change : σ → σ) (outcome : Completion) : Behaviour σ :=
  fun s trace t found => trace = [what] ∧ t = change s ∧ found = outcome

-- One behaviour and then another, unless the first leaves off early.
def seq (p q : Behaviour σ) : Behaviour σ := fun s trace t outcome =>
  (∃ first second middle, p s first middle .normal ∧ q middle second t outcome ∧
    trace = first ++ second) ∨ (outcome ≠ .normal ∧ p s trace t outcome)

-- One of two behaviours, by the answer to a question.
def choose (question : σ → List Action → Bool → σ → Prop) (p q : Behaviour σ) : Behaviour σ :=
  fun s trace t outcome => ∃ first second middle answer, question s first answer middle ∧
    (if answer then p else q) middle second t outcome ∧ trace = first ++ second

-- A loop whose rounds start in the given states. Before each round it asks whether and with what to go
-- on; behind a round that is not left early, or that is left for the next one, it runs `update`.
inductive Rounds (question : κ → σ → List Action → Option κ → σ → Prop)
    (body update : Behaviour σ) : κ → List σ → Behaviour σ
  | stop {k : κ} {s t : σ} {trace : List Action} (hask : question k s trace none t) :
      Rounds question body update k [] s trace t .normal
  | next {k l : κ} {s t u v w : σ} {starts : List σ} {asked done updated rest : List Action}
      {outcome final : Completion} (hask : question k s asked (some l) t)
      (hbody : body t done u outcome) (houtcome : outcome.leaves? = none)
      (hupdate : update u updated v .normal)
      (hrest : Rounds question body update l starts v rest w final) :
      Rounds question body update k (t :: starts) s (asked ++ done ++ updated ++ rest) w final
  | leave {k l : κ} {s t u : σ} {asked done : List Action} {outcome final : Completion}
      (hask : question k s asked (some l) t) (hbody : body t done u outcome)
      (houtcome : outcome.leaves? = some final) :
      Rounds question body update k [t] s (asked ++ done) u final

-- A loop wherever its rounds start.
def loops (rounds : List σ → Behaviour σ) : Behaviour σ :=
  fun s trace t outcome => ∃ starts, rounds starts s trace t outcome

-- A behaviour, and another one behind it if it leaves off for the next round.
def onContinue (u p : Behaviour σ) : Behaviour σ := fun s trace t outcome =>
  if outcome = .continued then
    ∃ first second middle, p s first middle .continued ∧ u middle second t .normal ∧
      trace = first ++ second
  else p s trace t outcome

theorem ext (h : ∀ s trace t outcome, p s trace t outcome ↔ q s trace t outcome) : p = q := by
  funext s trace t outcome
  exact propext (h s trace t outcome)

section Laws

theorem seq_skip (p : Behaviour σ) : seq p skip = p := by
  apply ext
  intro s trace t outcome
  constructor
  · rintro (⟨first, second, middle, hp, ⟨rfl, rfl, rfl⟩, rfl⟩ | ⟨-, hp⟩)
    · rwa [List.append_nil]
    · exact hp
  · intro hp
    cases outcome with
    | normal => exact .inl ⟨trace, [], t, hp, ⟨rfl, rfl, rfl⟩, by simp⟩
    | _ => exact .inr ⟨by simp, hp⟩

theorem skip_seq (p : Behaviour σ) : seq skip p = p := by
  apply ext
  intro s trace t outcome
  constructor
  · rintro (⟨first, second, middle, ⟨rfl, rfl, -⟩, hp, rfl⟩ | ⟨hne, -, -, rfl⟩)
    · exact hp
    · contradiction
  · intro hp
    exact .inl ⟨[], trace, s, ⟨rfl, rfl, rfl⟩, hp, rfl⟩

theorem seq_assoc (p q r : Behaviour σ) : seq (seq p q) r = seq p (seq q r) := by
  apply ext
  intro s trace t outcome
  constructor
  · rintro (⟨first, second, middle, ⟨one, two, between, hp, hq, rfl⟩ | ⟨hne, -⟩, hr, rfl⟩ |
      ⟨hne, ⟨one, two, between, hp, hq, rfl⟩ | ⟨-, hp⟩⟩)
    · exact .inl ⟨one, two ++ second, between, hp, .inl ⟨two, second, middle, hq, hr, rfl⟩,
        List.append_assoc one two second⟩
    · contradiction
    · exact .inl ⟨one, two, between, hp, .inr ⟨hne, hq⟩, rfl⟩
    · exact .inr ⟨hne, hp⟩
  · rintro (⟨first, second, middle, hp, ⟨one, two, between, hq, hr, rfl⟩ | ⟨hne, hq⟩, rfl⟩ |
      ⟨hne, hp⟩)
    · exact .inl ⟨first ++ one, two, between, .inl ⟨first, one, middle, hp, hq, rfl⟩, hr,
        (List.append_assoc first one two).symm⟩
    · exact .inr ⟨hne, .inl ⟨first, second, middle, hp, hq, rfl⟩⟩
    · exact .inr ⟨hne, .inr ⟨hne, hp⟩⟩

theorem seq_action_iff {what : Action} {change : σ → σ} {s : σ} {outcome : Completion} :
    (∃ trace t, seq (action what change .normal) p s trace t outcome) ↔
      ∃ trace t, p (change s) trace t outcome := by
  constructor
  · rintro ⟨trace, t, ⟨first, second, middle, ⟨-, rfl, -⟩, hp, -⟩ | ⟨hne, -, -, rfl⟩⟩
    · exact ⟨second, t, hp⟩
    · contradiction
  · rintro ⟨trace, t, hp⟩
    exact ⟨_, t, .inl ⟨[what], trace, change s, ⟨rfl, rfl, rfl⟩, hp, rfl⟩⟩

theorem onContinue_skip (p : Behaviour σ) : onContinue skip p = p := by
  apply ext
  intro s trace t outcome
  unfold onContinue
  split
  · rename_i houtcome
    subst houtcome
    constructor
    · rintro ⟨first, second, middle, hp, ⟨rfl, rfl, -⟩, rfl⟩
      rwa [List.append_nil]
    · intro hp
      exact ⟨trace, [], t, hp, ⟨rfl, rfl, rfl⟩, by simp⟩
  · rfl

-- What never leaves off for the next round is followed by nothing.
theorem onContinue_eq_self (h : ∀ s trace t, ¬ p s trace t .continued) (u : Behaviour σ) :
    onContinue u p = p := by
  apply ext
  intro s trace t outcome
  unfold onContinue
  split
  · rename_i houtcome
    subst houtcome
    constructor
    · rintro ⟨first, second, middle, hp, -⟩
      exact absurd hp (h s first middle)
    · exact fun hp => absurd hp (h s trace t)
  · rfl

theorem onContinue_seq (u p q : Behaviour σ) :
    onContinue u (seq p q) = seq (onContinue u p) (onContinue u q) := by
  apply ext
  intro s trace t outcome
  by_cases houtcome : outcome = .continued
  · subst houtcome
    simp only [onContinue, seq, if_true, reduceCtorEq, if_false, ne_eq, not_false_eq_true, true_and]
    constructor
    · rintro ⟨first, second, middle, ⟨one, two, between, hp, hq, rfl⟩ | hp, hu, rfl⟩
      · exact .inl ⟨one, two ++ second, between, hp, ⟨two, second, middle, hq, hu, rfl⟩,
          List.append_assoc one two second⟩
      · exact .inr ⟨first, second, middle, hp, hu, rfl⟩
    · rintro (⟨first, second, middle, hp, ⟨one, two, between, hq, hu, rfl⟩, rfl⟩ |
        ⟨first, second, middle, hp, hu, rfl⟩)
      · exact ⟨first ++ one, two, between, .inl ⟨first, one, middle, hp, hq, rfl⟩, hu,
          (List.append_assoc first one two).symm⟩
      · exact ⟨first, second, middle, .inr hp, hu, rfl⟩
  · simp only [onContinue, seq, houtcome, if_false, reduceCtorEq]

theorem onContinue_choose (u p q : Behaviour σ) (question : σ → List Action → Bool → σ → Prop) :
    onContinue u (choose question p q) = choose question (onContinue u p) (onContinue u q) := by
  apply ext
  intro s trace t outcome
  by_cases houtcome : outcome = .continued
  · subst houtcome
    simp only [onContinue, choose, if_true]
    constructor
    · rintro ⟨_, last, final, ⟨first, second, middle, answer, hask, hchosen, rfl⟩, hu, rfl⟩
      refine ⟨first, second ++ last, middle, answer, hask, ?_, List.append_assoc first second last⟩
      cases answer <;> exact ⟨second, last, final, hchosen, hu, rfl⟩
    · rintro ⟨first, _, middle, answer, hask, hchosen, rfl⟩
      cases answer <;>
      · obtain ⟨second, last, final, hchosen, hu, rfl⟩ := hchosen
        exact ⟨first ++ second, last, final, ⟨first, second, middle, _, hask, hchosen, rfl⟩, hu,
          (List.append_assoc first second last).symm⟩
  · have hself : ∀ (p : Behaviour σ) s trace t, onContinue u p s trace t outcome ↔
        p s trace t outcome := by
      intro p s trace t
      rw [onContinue, if_neg houtcome]
    rw [hself]
    refine exists_congr fun first => exists_congr fun second => exists_congr fun middle =>
      exists_congr fun answer => and_congr_right fun _ => and_congr_left fun _ => ?_
    cases answer <;> exact (hself _ middle second t).symm

theorem onContinue_leave (hu : ∀ s trace t outcome, u s trace t outcome → outcome = .normal) :
    onContinue u (leave .continued) = seq u (leave .continued) := by
  apply ext
  intro s trace t outcome
  constructor
  · intro h
    unfold onContinue at h
    split at h
    · rename_i houtcome
      subst houtcome
      obtain ⟨first, second, middle, ⟨rfl, rfl, -⟩, hupdate, rfl⟩ := h
      exact .inl ⟨trace, [], t, hupdate, ⟨rfl, rfl, rfl⟩, (List.append_nil trace).symm⟩
    · obtain ⟨-, -, rfl⟩ := h
      contradiction
  · rintro (⟨first, second, middle, hupdate, ⟨rfl, rfl, rfl⟩, rfl⟩ | ⟨hne, hupdate⟩)
    · exact ⟨[], first, s, ⟨rfl, rfl, rfl⟩, hupdate, List.append_nil first⟩
    · exact absurd (hu _ _ _ _ hupdate) hne

end Laws

section Loops

variable {question : κ → σ → List Action → Option κ → σ → Prop} {body update : Behaviour σ} {k : κ}
  {starts : List σ} {s : σ}

theorem loops_seq (p : Behaviour σ) (rounds : List σ → Behaviour σ) :
    (loops fun starts => seq p (rounds starts)) = seq p (loops rounds) := by
  apply ext
  intro s trace t outcome
  constructor
  · rintro ⟨starts, ⟨first, second, middle, hp, hrounds, rfl⟩ | hp⟩
    · exact .inl ⟨first, second, middle, hp, ⟨starts, hrounds⟩, rfl⟩
    · exact .inr hp
  · rintro (⟨first, second, middle, hp, ⟨starts, hrounds⟩, rfl⟩ | hp)
    · exact ⟨starts, .inl ⟨first, second, middle, hp, hrounds, rfl⟩⟩
    · exact ⟨[], .inr hp⟩

-- A loop does not leave off for the next round of another one.
theorem rounds_ne_continued {t : σ} {trace : List Action} :
    ¬ Rounds question body update k starts s trace t .continued := by
  intro h
  generalize houtcome : Completion.continued = outcome at h
  induction h with
  | stop => cases houtcome
  | next _ _ _ _ _ ih => exact ih houtcome
  | @leave _ _ _ _ _ _ _ outcome _ _ _ hleaves =>
      subst houtcome
      cases outcome <;> cases hleaves

-- A loop without rounds asks once.
theorem rounds_nil_iff {outcome : Completion} :
    (∃ trace t, Rounds question body update k [] s trace t outcome) ↔
      outcome = .normal ∧ ∃ trace t, question k s trace none t := by
  constructor
  · rintro ⟨trace, t, h⟩
    cases h with
    | stop hask => exact ⟨rfl, trace, t, hask⟩
  · rintro ⟨rfl, trace, t, hask⟩
    exact ⟨trace, t, .stop hask⟩

-- The first round of a loop is left for the rest of its rounds or for good.
theorem rounds_cons_iff {start : σ} {final : Completion} :
    (∃ trace t, Rounds question body update k (start :: starts) s trace t final) ↔
      ∃ asked l, question k s asked (some l) start ∧ ∃ done t outcome, body start done t outcome ∧
        ((outcome.leaves? = none ∧ ∃ updated u, update t updated u .normal ∧
            ∃ rest v, Rounds question body update l starts u rest v final) ∨
          (outcome.leaves? = some final ∧ starts = [])) := by
  constructor
  · rintro ⟨trace, t, h⟩
    cases h with
    | next hask hbody houtcome hupdate hrest =>
        exact ⟨_, _, hask, _, _, _, hbody, .inl ⟨houtcome, _, _, hupdate, _, _, hrest⟩⟩
    | leave hask hbody houtcome =>
        exact ⟨_, _, hask, _, _, _, hbody, .inr ⟨houtcome, rfl⟩⟩
  · rintro ⟨asked, l, hask, done, t, outcome, hbody,
      ⟨houtcome, updated, u, hupdate, rest, v, hrest⟩ | ⟨houtcome, rfl⟩⟩
    · exact ⟨_, v, .next hask hbody houtcome hupdate hrest⟩
    · exact ⟨_, t, .leave hask hbody houtcome⟩

-- What a loop does behind each round may as well stand at the end of its body and wherever the body
-- leaves off for the next round.
theorem rounds_update (hupdate : ∀ s trace t outcome, update s trace t outcome → outcome = .normal)
    (k : κ) (starts : List σ) : Rounds question body update k starts =
      Rounds question (seq (onContinue update body) update) skip k starts := by
  apply ext
  intro s trace t outcome
  constructor
  · intro h
    induction h with
    | stop hask => exact .stop hask
    | @next k l s t u v w starts asked done updated rest outcome final hask hbody houtcome hu _ ih =>
        have hround : seq (onContinue update body) update t (done ++ updated) v outcome := by
          cases outcome with
          | normal => exact .inl ⟨done, updated, u, by simpa [onContinue] using hbody, hu, rfl⟩
          | continued =>
              refine .inr ⟨by simp, ?_⟩
              simp only [onContinue, if_true]
              exact ⟨done, updated, u, hbody, hu, rfl⟩
          | _ => cases houtcome
        have hnext := Rounds.next hask hround houtcome ⟨rfl, rfl, rfl⟩ ih
        simpa [List.append_assoc] using hnext
    | @leave k l s t u asked done outcome final hask hbody hleaves =>
        refine .leave hask (.inr ⟨?_, ?_⟩) hleaves
        · rintro rfl
          cases hleaves
        · cases outcome <;> first | exact hbody | cases hleaves
  · intro h
    induction h with
    | stop hask => exact .stop hask
    | @next k l s t u v w starts asked done updated rest outcome final hask hround houtcome hskip _ ih =>
        obtain ⟨rfl, rfl, -⟩ := hskip
        rcases hround with ⟨first, second, middle, hbody, hu, rfl⟩ | ⟨hne, hbody⟩
        · have hnormal := hupdate _ _ _ _ hu
          subst hnormal
          have hnext := Rounds.next hask (by simpa [onContinue] using hbody) rfl hu ih
          simpa [List.append_assoc] using hnext
        · cases outcome with
          | continued =>
              simp only [onContinue, if_true] at hbody
              obtain ⟨first, second, middle, hbody, hu, rfl⟩ := hbody
              have hnext := Rounds.next hask hbody rfl hu ih
              simpa [List.append_assoc] using hnext
          | normal => contradiction
          | _ => cases houtcome
    | @leave k l s t u asked done outcome final hask hround hleaves =>
        rcases hround with ⟨first, second, middle, hbody, hu, rfl⟩ | ⟨hne, hbody⟩
        · have hnormal := hupdate _ _ _ _ hu
          subst hnormal
          cases hleaves
        · refine .leave hask ?_ hleaves
          cases outcome <;> first | exact hbody | cases hleaves

end Loops

end Behaviour

-- What simple statements, conditions and loops over something do to a state of whatever kind. `ι` is
-- what is left of the elements of a loop.
structure Interpretation (σ ι : Type) where
  act : Stmt → σ → σ
  ask : Expr → σ → Bool × σ
  enter : Iteration → σ → ι × σ
  draw : String → ι → σ → Option ι × σ
  give : Option Expr → σ → σ

namespace Interpretation

variable {σ ι : Type}

-- The answer to a condition. One that is left out always holds, and a literal takes no action.
def asks (i : Interpretation σ ι) : Option Expr → σ → List Action → Bool → σ → Prop
  | none, s, trace, answer, t => trace = [] ∧ answer = true ∧ t = s
  | some (.boolean value _), s, trace, answer, t => trace = [] ∧ answer = value ∧ t = s
  | some condition, s, trace, answer, t =>
      trace = [.asked condition] ∧ (answer, t) = i.ask condition s

def draws (i : Interpretation σ ι) (target : String) (left : ι) (s : σ) (trace : List Action)
    (more : Option ι) (t : σ) : Prop :=
  trace = [.drew target] ∧ (more, t) = i.draw target left s

-- A loop that goes on as long as a condition holds.
def loop (i : Interpretation σ ι) (condition : Option Expr) (body update : Behaviour σ) :
    List σ → Behaviour σ :=
  .Rounds (fun _ s trace more t => i.asks condition s trace more.isSome t) body update ()

-- A loop of three clauses.
def loopClauses (i : Interpretation σ ι) (init : Behaviour σ) (test : Option Expr)
    (update body : Behaviour σ) (starts : List σ) : Behaviour σ :=
  .seq init (i.loop test body update starts)

-- A loop over something, which is looked at once.
def loopOver (i : Interpretation σ ι) (target : String) (iteration : Iteration)
    (body : Behaviour σ) (starts : List σ) : Behaviour σ := fun s trace t outcome =>
  ∃ rest, trace = .entered iteration :: rest ∧ Behaviour.Rounds (i.draws target) body .skip
    (i.enter iteration s).1 starts (i.enter iteration s).2 rest t outcome

mutual

-- The runs of a statement. Definitions are simple statements here; exceptions are not described.
def runs (i : Interpretation σ ι) : Stmt → Behaviour σ
  | .ifElse condition body elifs orElse _ =>
      .choose (i.asks (some condition)) (i.runsAll body) (i.runsElifs elifs (i.runsOption orElse))
  | .forIn target iteration body _ => .loops (i.loopOver target iteration (i.runsAll body))
  | .forClauses init test update body _ =>
      .loops (i.loopClauses (i.runsClause init) test (i.runsClause update) (i.runsAll body))
  | .whileDo condition body _ => .loops (i.loop (some condition) (i.runsAll body) .skip)
  | .tryCatch _ _ _ _ => fun _ _ _ _ => False
  | .returns value _ => .action (.gave value) (i.give value) .returned
  | .breaks _ => .leave .broken
  | .continues _ => .leave .continued
  | stmt => .action (.did stmt) (i.act stmt) .normal

def runsAll (i : Interpretation σ ι) : List Stmt → Behaviour σ
  | [] => .skip
  | first :: rest => .seq (i.runs first) (i.runsAll rest)

def runsOption (i : Interpretation σ ι) : Option (List Stmt) → Behaviour σ
  | none => .skip
  | some body => i.runsAll body

def runsClause (i : Interpretation σ ι) : Option Stmt → Behaviour σ
  | none => .skip
  | some stmt => i.runs stmt

def runsElifs (i : Interpretation σ ι) : List (ElifClause Stmt) → Behaviour σ → Behaviour σ
  | [], otherwise => otherwise
  | ⟨condition, body, _⟩ :: rest, otherwise =>
      .choose (i.asks (some condition)) (i.runsAll body) (i.runsElifs rest otherwise)

end

variable (i : Interpretation σ ι)

theorem runsAll_append (first second : List Stmt) :
    i.runsAll (first ++ second) = .seq (i.runsAll first) (i.runsAll second) := by
  induction first with
  | nil => rw [List.nil_append, runsAll, Behaviour.skip_seq]
  | cons stmt rest ih => rw [List.cons_append, runsAll, ih, runsAll, Behaviour.seq_assoc]

theorem runsAll_singleton (stmt : Stmt) : i.runsAll [stmt] = i.runs stmt := by
  rw [runsAll, runsAll, Behaviour.seq_skip]

theorem runsAll_toList (clause : Option Stmt) :
    i.runsAll clause.toList = i.runsClause clause := by
  cases clause with
  | none => rfl
  | some stmt => exact i.runsAll_singleton stmt

end Interpretation

end Diglot
