import Diglot.Proofs.Build.Jobs

namespace Diglot

namespace CommandLine

-- How far the work on an input has come.
inductive Job where
  | waiting (input : String)
  -- The program is made, but not yet written.
  | holding (input target code : String)
  | done (input : String) (result : Except CommandError String)

namespace Job

def input : Job → String
  | waiting input | holding input _ _ | done input _ => input

def isDone : Job → Bool
  | done .. => true
  | _ => false

theorem exists_of_isDone {job : Job} (h : job.isDone = true) :
    ∃ input result, job = done input result := by
  cases job with
  | done input result => exact ⟨input, result, rfl⟩
  | _ => cases h

def report? : Job → Option (String × Except CommandError String)
  | done input result => some (input, result)
  | _ => none

-- The next access to the files: the input is read, or its program is written.
def advance (options : BuildOptions) (config : Config) (tree : FileTree) : Job → Job × FileTree
  | waiting input =>
      match draft options config tree input with
      | .ok (target, code) => (holding input target code, tree)
      | .error error => (done input (.error error), tree)
  | holding input target code =>
      (done input (settle target code tree).1, (settle target code tree).2)
  | done input result => (done input result, tree)

end Job

-- Files with the jobs that work on them at once.
structure Workshop where
  tree : FileTree
  jobs : List Job

namespace Workshop

def opened (tree : FileTree) (inputs : List String) : Workshop :=
  ⟨tree, inputs.map .waiting⟩

-- One job takes its next access.
def turn (options : BuildOptions) (config : Config) (shop : Workshop) (i : Nat) : Workshop :=
  match shop.jobs[i]? with
  | none => shop
  | some job =>
      ⟨(job.advance options config shop.tree).2,
        shop.jobs.set i (job.advance options config shop.tree).1⟩

-- Jobs take their accesses in some order.
def run (options : BuildOptions) (config : Config) (shop : Workshop) (turns : List Nat) :
    Workshop :=
  turns.foldl (turn options config) shop

def isDone (shop : Workshop) : Bool := shop.jobs.all (·.isDone)

-- What is told about the inputs.
def results (shop : Workshop) : List (String × Except CommandError String) :=
  shop.jobs.filterMap (·.report?)

-- Every program that is reported as written is there, made from what its input was before.
def Keeps (options : BuildOptions) (config : Config) (before : FileTree) (shop : Workshop) : Prop :=
  ∀ input written, (input, .ok written) ∈ shop.results →
    ∃ code, Drafts options config before input written code ∧ shop.tree.read written = .ok code

-- In whatever order the jobs take their accesses, once all are done nothing is lost.
def AlwaysKeeps (options : BuildOptions) (config : Config) (tree : FileTree)
    (inputs : List String) : Prop :=
  ∀ turns, ((opened tree inputs).run options config turns).isDone = true →
    Keeps options config tree ((opened tree inputs).run options config turns)

section Turns

variable {options : BuildOptions} {config : Config} {shop : Workshop} {i k : Nat} {job : Job}
  {input : String} {result : Except CommandError String} {turns : List Nat}

theorem turn_eq (h : shop.jobs[i]? = some job) :
    shop.turn options config i =
      ⟨(job.advance options config shop.tree).2,
        shop.jobs.set i (job.advance options config shop.tree).1⟩ := by
  rw [turn, h]

theorem turn_eq_self (h : shop.jobs[i]? = none) : shop.turn options config i = shop := by
  rw [turn, h]

theorem run_append (turns more : List Nat) :
    shop.run options config (turns ++ more) =
      (shop.run options config turns).run options config more :=
  List.foldl_append ..

-- What a turn does to the jobs: it changes the job whose turn it is.

theorem getElem?_turn (h : shop.jobs[i]? = some job) :
    (shop.turn options config i).jobs[i]? = some (job.advance options config shop.tree).1 := by
  rw [turn_eq h]
  exact List.getElem?_set_self (List.getElem?_eq_some_iff.mp h).1

theorem getElem?_turn_ne (h : k ≠ i) : (shop.turn options config i).jobs[k]? = shop.jobs[k]? := by
  cases hjob : shop.jobs[i]? with
  | none => rw [turn_eq_self hjob]
  | some job =>
      rw [turn_eq hjob]
      exact List.getElem?_set_ne h.symm

theorem getElem?_turn_done (h : shop.jobs[k]? = some (.done input result)) :
    (shop.turn options config i).jobs[k]? = some (.done input result) := by
  by_cases hk : k = i
  · subst hk
    exact getElem?_turn h
  · rw [getElem?_turn_ne hk, h]

theorem getElem?_run_done (h : shop.jobs[k]? = some (.done input result)) :
    (shop.run options config turns).jobs[k]? = some (.done input result) := by
  induction turns generalizing shop with
  | nil => exact h
  | cons i rest ih => exact ih (getElem?_turn_done h)

theorem getElem?_run_of_not_mem (h : k ∉ turns) :
    (shop.run options config turns).jobs[k]? = shop.jobs[k]? := by
  induction turns generalizing shop with
  | nil => rfl
  | cons i rest ih =>
      rw [List.mem_cons, not_or] at h
      exact (ih h.2).trans (getElem?_turn_ne h.1)

theorem length_turn : (shop.turn options config i).jobs.length = shop.jobs.length := by
  cases hjob : shop.jobs[i]? with
  | none => rw [turn_eq_self hjob]
  | some job =>
      rw [turn_eq hjob]
      exact List.length_set

theorem length_run (turns : List Nat) :
    (shop.run options config turns).jobs.length = shop.jobs.length := by
  induction turns generalizing shop with
  | nil => rfl
  | cons i rest ih => exact ih.trans length_turn

theorem mem_results :
    (input, result) ∈ shop.results ↔ ∃ k : Nat, shop.jobs[k]? = some (.done input result) := by
  rw [results, List.mem_filterMap]
  constructor
  · rintro ⟨job, hjob, hreport⟩
    obtain ⟨k, hk⟩ := List.mem_iff_getElem?.mp hjob
    cases job with
    | done found told =>
        cases hreport
        exact ⟨k, hk⟩
    | _ => cases hreport
  · rintro ⟨k, hk⟩
    exact ⟨_, List.mem_of_getElem? hk, rfl⟩

end Turns

section Accesses

variable {options : BuildOptions} {config : Config} {tree after : FileTree}
  {input target code : String} {old : Job} {moved : Job × FileTree}

theorem advance_waiting_of_ok (h : draft options config tree input = .ok (target, code)) :
    (Job.waiting input).advance options config tree = (.holding input target code, tree) := by
  rw [Job.advance, h]

theorem advance_holding_of_ok (h : tree.write target code = .ok after) :
    (Job.holding input target code).advance options config tree =
      (.done input (.ok target), after) := by
  simp only [Job.advance, settle, h]

-- What the next access of a job can come to.
inductive Moves (options : BuildOptions) (config : Config) (tree : FileTree) :
    Job → Job × FileTree → Prop
  | refused (input : String) (error : CommandError) :
      Moves options config tree (.waiting input) (.done input (.error error), tree)
  | drafted {input target code : String} (h : Drafts options config tree input target code) :
      Moves options config tree (.waiting input) (.holding input target code, tree)
  | unwritten (input target code : String) (error : CommandError) :
      Moves options config tree (.holding input target code) (.done input (.error error), tree)
  | written {target code : String} {after : FileTree} (input : String)
      (h : tree.write target code = .ok after) :
      Moves options config tree (.holding input target code) (.done input (.ok target), after)
  | still (input : String) (result : Except CommandError String) :
      Moves options config tree (.done input result) (.done input result, tree)

theorem moves_advance (job : Job) (tree : FileTree) :
    Moves options config tree job (job.advance options config tree) := by
  cases job with
  | waiting input =>
      cases hdraft : draft options config tree input with
      | error error =>
          rw [Job.advance, hdraft]
          exact .refused input error
      | ok found =>
          rw [advance_waiting_of_ok hdraft]
          exact .drafted (draft_eq_ok_iff.mp hdraft)
  | holding input target code =>
      cases hwrite : tree.write target code with
      | error reason =>
          simp only [Job.advance, settle, hwrite]
          exact .unwritten input target code _
      | ok after =>
          rw [advance_holding_of_ok hwrite]
          exact .written input hwrite
  | done input result => exact .still input result

theorem sameDirs_of_moves (h : Moves options config tree old moved) : moved.2.SameDirs tree := by
  cases h with
  | written input hwrite =>
      obtain ⟨place, hlands, rfl⟩ := FileTree.write_eq_ok_iff.mp hwrite
      exact hlands.sameDirs _
  | _ => exact .refl _

-- A job has at most two accesses.
theorem isDone_of_moves {later : Job × FileTree} (hfirst : Moves options config tree old moved)
    (hsecond : Moves options config after moved.1 later) : later.1.isDone = true := by
  cases hfirst <;> cases hsecond <;> rfl

end Accesses

section Orders

variable {options : BuildOptions} {config : Config} {shop : Workshop} {tree after : FileTree}
  {i k : Nat} {input target code : String} {inputs : List String} {job : Job}

-- The orders in which some jobs, one after the other, are done without a break.
def inTurn (indices : List Nat) : List Nat := indices.flatMap fun k => [k, k]

theorem isDone_of_inTurn {indices : List Nat} (hmem : k ∈ indices)
    (hjob : (shop.run options config (inTurn indices)).jobs[k]? = some job) :
    job.isDone = true := by
  induction indices generalizing shop with
  | nil => cases hmem
  | cons i rest ih =>
      change ((((shop.turn options config i).turn options config i).run options config
        (inTurn rest)).jobs[k]? = some job) at hjob
      rcases List.mem_cons.mp hmem with rfl | hmem
      · have hlength := (List.getElem?_eq_some_iff.mp hjob).1
        rw [length_run, length_turn, length_turn] at hlength
        have hfirst : (shop.turn options config k).jobs[k]? = _ :=
          getElem?_turn (List.getElem?_eq_getElem hlength)
        have hsecond : ((shop.turn options config k).turn options config k).jobs[k]? = _ :=
          getElem?_turn hfirst
        obtain ⟨input, result, hdone⟩ :=
          Job.exists_of_isDone (isDone_of_moves (moves_advance _ _) (moves_advance _ _))
        rw [hdone] at hsecond
        rw [getElem?_run_done hsecond] at hjob
        cases hjob
        rfl
      · exact ih hmem hjob

theorem isDone_iff :
    shop.isDone = true ↔ ∀ (k : Nat) (job : Job), shop.jobs[k]? = some job → job.isDone = true := by
  rw [isDone, List.all_eq_true]
  constructor
  · intro h k job hjob
    exact h job (List.mem_of_getElem? hjob)
  · intro h job hjob
    obtain ⟨k, hk⟩ := List.mem_iff_getElem?.mp hjob
    exact h k job hk

theorem sameDirs_turn : (shop.turn options config i).tree.SameDirs shop.tree := by
  cases hjob : shop.jobs[i]? with
  | none =>
      rw [turn_eq_self hjob]
      exact .refl _
  | some job =>
      rw [turn_eq hjob]
      exact sameDirs_of_moves (moves_advance job shop.tree)

theorem sameDirs_run (turns : List Nat) :
    (shop.run options config turns).tree.SameDirs shop.tree := by
  induction turns generalizing shop with
  | nil => exact .refl _
  | cons i rest ih => exact ih.trans sameDirs_turn

theorem turn_reads (hjob : shop.jobs[i]? = some (.waiting input))
    (hdrafts : Drafts options config shop.tree input target code) :
    (shop.turn options config i).tree = shop.tree ∧
      (shop.turn options config i).jobs[i]? = some (.holding input target code) := by
  have hadvance := advance_waiting_of_ok (draft_eq_ok_iff.mpr hdrafts)
  rw [getElem?_turn hjob, turn_eq hjob, hadvance]
  exact ⟨rfl, rfl⟩

theorem turn_writes (hjob : shop.jobs[i]? = some (.holding input target code))
    (hwrite : shop.tree.write target code = .ok after) :
    (shop.turn options config i).tree = after ∧
      (shop.turn options config i).jobs[i]? = some (.done input (.ok target)) := by
  rw [getElem?_turn hjob, turn_eq hjob, advance_holding_of_ok hwrite]
  exact ⟨rfl, rfl⟩

theorem getElem?_opened (h : inputs[i]? = some input) :
    (opened tree inputs).jobs[i]? = some (.waiting input) := by
  rw [opened, List.getElem?_map, h]
  rfl

theorem lt_of_getElem?_run {turns : List Nat}
    (h : ((opened tree inputs).run options config turns).jobs[k]? = some job) :
    k < inputs.length := by
  have hlength := (List.getElem?_eq_some_iff.mp h).1
  rwa [length_run, opened, List.length_map] at hlength

-- The two accesses of a job without a break are the work on its input.
theorem advance_advance {result : Except CommandError String}
    (h : (buildInput FileTree.system options config input).run.run tree = (result, after)) :
    ((Job.waiting input).advance options config tree).1.advance options config
      ((Job.waiting input).advance options config tree).2 = (.done input result, after) := by
  cases hdraft : draft options config tree input with
  | error error =>
      rw [buildInput_of_error hdraft] at h
      cases h
      rw [Job.advance, hdraft]
      rfl
  | ok found =>
      obtain ⟨target, code⟩ := found
      rw [buildInput_of_ok hdraft] at h
      rw [advance_waiting_of_ok hdraft]
      simp only [Job.advance, h]

theorem turn_append (job : Job) (front rest : List Job) (tree : FileTree) :
    (Workshop.mk tree (front ++ job :: rest)).turn options config front.length =
      ⟨(job.advance options config tree).2,
        front ++ (job.advance options config tree).1 :: rest⟩ := by
  have hjob : (Workshop.mk tree (front ++ job :: rest)).jobs[front.length]? = some job := by simp
  rw [turn_eq hjob]
  simp

theorem run_inTurn (rest : List String) (front : List Job) (tree : FileTree)
    {results : List (String × Except CommandError String)} {final : FileTree}
    (h : (buildInputs FileTree.system options config rest).run tree = (results, final)) :
    (Workshop.mk tree (front ++ rest.map .waiting)).run options config
        (inTurn (List.range' front.length rest.length)) =
      ⟨final, front ++ results.map fun told => .done told.1 told.2⟩ := by
  induction rest generalizing front tree results with
  | nil =>
      cases h
      rfl
  | cons input rest ih =>
      cases hinput : (buildInput FileTree.system options config input).run.run tree with
      | mk result after =>
          cases hrest : (buildInputs FileTree.system options config rest).run after with
          | mk others last =>
              rw [buildInputs_cons hinput hrest] at h
              cases h
              change (((Workshop.mk tree (front ++ .waiting input :: rest.map .waiting)).turn
                options config front.length).turn options config front.length).run options config
                (inTurn (List.range' (front.length + 1) rest.length)) = _
              rw [turn_append, turn_append, advance_advance hinput]
              have hlater := ih (front ++ [.done input result]) after hrest
              simpa using hlater

end Orders

end Workshop

-- Jobs that are done in the order of their inputs do what `build` does.
theorem exists_run_eq_build {options : BuildOptions} {config : Config} {tree ready : FileTree}
    (h : Prepared options tree config ready) :
    ∃ turns,
      ((Workshop.opened ready options.inputs).run options config turns).isDone = true ∧
      (build FileTree.system options).run tree =
        (summary ((Workshop.opened ready options.inputs).run options config turns).results,
          ((Workshop.opened ready options.inputs).run options config turns).tree) := by
  cases hrun : (buildInputs FileTree.system options config options.inputs).run ready with
  | mk results final =>
      have hturns : (Workshop.opened ready options.inputs).run options config
          (Workshop.inTurn (List.range' 0 options.inputs.length)) =
            ⟨final, results.map fun told => .done told.1 told.2⟩ :=
        Workshop.run_inTurn options.inputs [] ready hrun
      have hresults : (results.map fun told => Job.done told.1 told.2).filterMap Job.report? =
          results := by
        rw [List.filterMap_map]
        exact List.filterMap_some
      refine ⟨Workshop.inTurn (List.range' 0 options.inputs.length), ?_, ?_⟩
      · rw [hturns]
        simp [Workshop.isDone, Job.isDone]
      · rw [build_of_prepared h, hrun, hturns, Workshop.results, hresults]
        rfl

end CommandLine

end Diglot
