import Diglot.CommandLine
import Diglot.Proofs.Build.Files

namespace Diglot

namespace CommandLine

variable {options : BuildOptions} {config : Config} {tree after : FileTree}
  {input target code text path : String} {wrap : FileError → CommandError}

-- In a tree, an input is carried over to a program that belongs to a target.
def Drafts (options : BuildOptions) (config : Config) (tree : FileTree)
    (input target code : String) : Prop :=
  ∃ dialect source, Dialect.ofPath? input = some dialect ∧ tree.read input = .ok source ∧
    Diglot.transpile config dialect source = .ok code ∧
    targetPath options dialect input = .ok target

-- What is done about an input before anything is written: its program and the target of that.
def draft (options : BuildOptions) (config : Config) (tree : FileTree) (input : String) :
    Except CommandError (String × String) :=
  match Dialect.ofPath? input with
  | none => .error (.unknownDialect input)
  | some dialect =>
      match tree.read input with
      | .error reason => .error (.unreadable input reason)
      | .ok source =>
          match Diglot.transpile config dialect source, targetPath options dialect input with
          | .error reason, _ => .error (.transpile input reason)
          | .ok _, .error error => .error error
          | .ok code, .ok target => .ok (target, code)

-- What is done about an input after that.
def settle (target code : String) (tree : FileTree) : Except CommandError String × FileTree :=
  match tree.write target code with
  | .ok written => (.ok target, written)
  | .error reason => (.error (.unwritable target reason), tree)

theorem draft_eq_ok_iff :
    draft options config tree input = .ok (target, code) ↔
      Drafts options config tree input target code := by
  unfold draft Drafts
  cases Dialect.ofPath? input with
  | none => simp
  | some dialect =>
      cases tree.read input with
      | error reason => simp
      | ok source =>
          cases htranspile : Diglot.transpile config dialect source with
          | error reason => simp [htranspile]
          | ok found =>
              cases htarget : targetPath options dialect input with
              | error error => simp [htranspile, htarget]
              | ok place => simp [htranspile, htarget, and_comm]

theorem Drafts.unique {other : String} (h : Drafts options config tree input target code)
    (hother : Drafts options config tree input other text) : other = target ∧ text = code := by
  have heq := (draft_eq_ok_iff.mpr hother).symm.trans (draft_eq_ok_iff.mpr h)
  simpa using heq

theorem toOption_eq_some_iff {ε α : Type} {result : Except ε α} {value : α} :
    result.toOption = some value ↔ result = .ok value := by
  cases result with
  | error error => simp [Except.toOption]
  | ok found => simp [Except.toOption]

section Runs

variable {σ α β : Type} {action : ExceptT CommandError (StateM σ) α} {state later : σ}
  {rest : α → ExceptT CommandError (StateM σ) β} {value : α}

theorem run_bind_of_ok (h : action.run.run state = (.ok value, later)) :
    (action >>= rest).run.run state = (rest value).run.run later := by
  rw [ExceptT.run_bind, StateT.run_bind, h]
  rfl

theorem run_bind_of_error {error : CommandError}
    (h : action.run.run state = (.error error, later)) :
    (action >>= rest).run.run state = (.error error, later) := by
  rw [ExceptT.run_bind, StateT.run_bind, h]
  rfl

variable {wrap : FileError → CommandError} {operation : StateM σ (Except FileError α)}

theorem attempt_of_ok (h : operation.run state = (.ok value, later)) :
    (attempt wrap operation).run.run state = (.ok value, later) := by
  rw [attempt, ExceptT.run_mk, StateT.run_bind, h]
  rfl

theorem attempt_of_error {reason : FileError} (h : operation.run state = (.error reason, later)) :
    (attempt wrap operation).run.run state = (.error (wrap reason), later) := by
  rw [attempt, ExceptT.run_mk, StateT.run_bind, h]
  rfl

end Runs

theorem attempt_read_of_ok (h : tree.read path = .ok text) :
    (attempt wrap (FileTree.system.read path)).run.run tree = (.ok text, tree) :=
  attempt_of_ok (congrArg (·, tree) h)

theorem attempt_read_of_error {reason : FileError} (h : tree.read path = .error reason) :
    (attempt wrap (FileTree.system.read path)).run.run tree = (.error (wrap reason), tree) :=
  attempt_of_error (congrArg (·, tree) h)

theorem readSource_run {dialect : Dialect} {source : String}
    (hdialect : Dialect.ofPath? input = some dialect) (hread : tree.read input = .ok source) :
    (readSource FileTree.system input).run.run tree = (.ok (dialect, source), tree) := by
  rw [readSource, hdialect]
  exact run_bind_of_ok (attempt_read_of_ok hread)

theorem attempt_write (target code : String) (tree : FileTree) :
    (do
      attempt (.unwritable target) (FileTree.system.write target code)
      return target : ExceptT CommandError (StateM FileTree) String).run.run tree =
      settle target code tree := by
  unfold settle
  cases hwrite : tree.write target code with
  | ok written =>
      have hrun : (FileTree.system.write target code).run tree = (.ok (), written) := by
        simp [FileTree.system, hwrite, StateT.run]
      exact run_bind_of_ok (attempt_of_ok hrun)
  | error reason =>
      have hrun : (FileTree.system.write target code).run tree = (.error reason, tree) := by
        simp [FileTree.system, hwrite, StateT.run]
      exact run_bind_of_error (attempt_of_error hrun)

-- The work on one input is to draft its program and to settle it.

theorem buildInput_of_ok (h : draft options config tree input = .ok (target, code)) :
    (buildInput FileTree.system options config input).run.run tree = settle target code tree := by
  obtain ⟨dialect, source, hdialect, hread, htranspile, htarget⟩ := draft_eq_ok_iff.mp h
  refine (run_bind_of_ok (readSource_run hdialect hread)).trans ?_
  simp only [htranspile, htarget]
  exact attempt_write target code tree

theorem buildInput_of_error {error : CommandError}
    (h : draft options config tree input = .error error) :
    (buildInput FileTree.system options config input).run.run tree = (.error error, tree) := by
  unfold draft at h
  cases hdialect : Dialect.ofPath? input with
  | none =>
      rw [hdialect] at h
      cases h
      refine run_bind_of_error ?_
      rw [readSource, hdialect]
      rfl
  | some dialect =>
      simp only [hdialect] at h
      cases hread : tree.read input with
      | error reason =>
          rw [hread] at h
          cases h
          refine run_bind_of_error ?_
          rw [readSource, hdialect]
          exact run_bind_of_error (attempt_read_of_error hread)
      | ok source =>
          refine (run_bind_of_ok (readSource_run hdialect hread)).trans ?_
          simp only [hread] at h
          cases htranspile : Diglot.transpile config dialect source with
          | error reason =>
              simp only [htranspile] at h ⊢
              cases h
              rfl
          | ok code =>
              cases htarget : targetPath options dialect input with
              | error error =>
                  simp only [htranspile, htarget] at h ⊢
                  cases h
                  rfl
              | ok target => simp [htranspile, htarget] at h

theorem buildInputs_cons {rest : List String} {final : FileTree}
    {result : Except CommandError String} {results : List (String × Except CommandError String)}
    (hinput : (buildInput FileTree.system options config input).run.run tree = (result, after))
    (hrest : (buildInputs FileTree.system options config rest).run after = (results, final)) :
    (buildInputs FileTree.system options config (input :: rest)).run tree =
      ((input, result) :: results, final) := by
  rw [buildInputs, StateT.run_bind, hinput]
  exact (StateT.run_bind ..).trans (by rw [hrest]; rfl)

section Preparation

variable {ready : FileTree}

-- The configuration that a `build` works under, as far as its file can be read and understood.
inductive Loads (options : BuildOptions) (tree : FileTree) : Config → Prop
  | default (h : options.config = none) :
      Loads options tree { Config.default with prelude := options.prelude }
  | file {path text : String} {config : Config} (hpath : options.config = some path)
      (hread : tree.read path = .ok text) (htext : Config.ofText text = .ok config) :
      Loads options tree { config with prelude := config.prelude || options.prelude }

theorem loadConfig_of_loads (h : Loads options tree config) :
    (loadConfig FileTree.system options).run.run tree = (.ok config, tree) := by
  cases h with
  | default h =>
      rw [loadConfig, h]
      rfl
  | file hpath hread htext =>
      rw [loadConfig, hpath]
      refine (run_bind_of_ok (attempt_read_of_ok hread)).trans ?_
      rw [htext]
      rfl

theorem loadConfig_of_not_loads (h : ¬∃ config, Loads options tree config) :
    ∃ error, (loadConfig FileTree.system options).run.run tree = (.error error, tree) := by
  cases hpath : options.config with
  | none => exact absurd ⟨_, .default hpath⟩ h
  | some path =>
      rw [loadConfig, hpath]
      cases hread : tree.read path with
      | error reason => exact ⟨_, run_bind_of_error (attempt_read_of_error hread)⟩
      | ok text =>
          cases htext : Config.ofText text with
          | ok config => exact absurd ⟨_, .file hpath hread htext⟩ h
          | error reason =>
              refine ⟨.badConfig path reason, ?_⟩
              refine (run_bind_of_ok (attempt_read_of_ok hread)).trans ?_
              rw [htext]
              rfl

-- The tree with the directory that programs go to, as far as it can be made.
inductive Makes (options : BuildOptions) (tree : FileTree) : FileTree → Prop
  | unnamed (h : options.outDir = none) : Makes options tree tree
  | named {directory : String} {ready : FileTree} (h : options.outDir = some directory)
      (hmade : FileTree.makeDirs directory tree = (.ok (), ready)) : Makes options tree ready

-- No file is touched before the work on the inputs starts.
theorem Makes.find? (h : Makes options tree ready) (place : Place) (bytes : ByteArray) :
    tree.find? place = some (.file bytes) ↔ ready.find? place = some (.file bytes) := by
  cases h with
  | unnamed => exact Iff.rfl
  | @named directory _ _ hmade =>
      have hkept := FileTree.find?_makeDirs directory tree place bytes
      rwa [hmade] at hkept

-- Whether one target is given for several inputs.
def IsCrowded (options : BuildOptions) : Prop :=
  options.output.isSome = true ∧ 1 < options.inputs.length

-- What the work on the inputs of a `build` starts from.
structure Prepared (options : BuildOptions) (tree : FileTree) (config : Config)
    (ready : FileTree) : Prop where
  loads : Loads options tree config
  fits : ¬IsCrowded options
  makes : Makes options tree ready

theorem Prepared.run (h : Prepared options tree config ready) :
    (prepare FileTree.system options).run.run tree = (.ok config, ready) := by
  obtain ⟨hloads, hfits, hmakes⟩ := h
  refine (run_bind_of_ok (loadConfig_of_loads hloads)).trans ?_
  unfold IsCrowded at hfits
  rw [if_neg hfits]
  cases hmakes with
  | unnamed h =>
      rw [h]
      rfl
  | named h hmade =>
      rw [h]
      exact run_bind_of_ok (attempt_of_ok hmade)

theorem prepare_of_refused (h : (¬∃ config, Loads options tree config) ∨ IsCrowded options) :
    ∃ error, (prepare FileTree.system options).run.run tree = (.error error, tree) := by
  by_cases hloads : ∃ config, Loads options tree config
  · obtain ⟨config, hloads⟩ := hloads
    have hcrowded : IsCrowded options := h.resolve_left fun hnone => hnone ⟨config, hloads⟩
    refine ⟨.severalInputs, (run_bind_of_ok (loadConfig_of_loads hloads)).trans ?_⟩
    unfold IsCrowded at hcrowded
    rw [if_pos hcrowded]
    rfl
  · obtain ⟨error, hrun⟩ := loadConfig_of_not_loads hloads
    exact ⟨error, run_bind_of_error hrun⟩

theorem build_of_prepared (h : Prepared options tree config ready) :
    (build FileTree.system options).run tree =
      ((buildInputs FileTree.system options config options.inputs).run ready).map summary id := by
  rw [build, StateT.run_bind, h.run]
  rfl

theorem build_of_refused (h : (¬∃ config, Loads options tree config) ∨ IsCrowded options) :
    ∃ error, (build FileTree.system options).run tree = (.failure error, tree) := by
  obtain ⟨error, hrun⟩ := prepare_of_refused h
  refine ⟨error, ?_⟩
  rw [build, StateT.run_bind, hrun]
  rfl

end Preparation

end CommandLine

end Diglot
