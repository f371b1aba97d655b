import Diglot.Proofs.Build.Jobs
import Mathlib.Tactic.ByContra

namespace Diglot

namespace CommandLine

variable {options : BuildOptions} {config : Config} {tree ready after final : FileTree}
  {input : String} {inputs kept failed : List String}
  {results : List (String × Except CommandError String)}

-- An input is carried over in a tree, and its program written.
def Carries (options : BuildOptions) (config : Config) (tree : FileTree) (input : String)
    (after : FileTree) : Prop :=
  ∃ target code, Drafts options config tree input target code ∧
    tree.write target code = .ok after

-- What becomes of a tree when inputs are carried over one after the other: those that can be are
-- kept, and each program is written before the next input is read. The others have failed.
inductive InOrder (options : BuildOptions) (config : Config) :
    FileTree → List String → List String → List String → FileTree → Prop
  | nil (tree : FileTree) : InOrder options config tree [] [] [] tree
  | carried {tree after final : FileTree} {input : String} {rest kept failed : List String}
      (h : Carries options config tree input after)
      (hrest : InOrder options config after rest kept failed final) :
      InOrder options config tree (input :: rest) (input :: kept) failed final
  | left {tree final : FileTree} {input : String} {rest kept failed : List String}
      (h : ¬∃ after, Carries options config tree input after)
      (hrest : InOrder options config tree rest kept failed final) :
      InOrder options config tree (input :: rest) kept (input :: failed) final

theorem exists_inOrder (tree : FileTree) (inputs : List String) :
    ∃ kept failed final, InOrder options config tree inputs kept failed final := by
  induction inputs generalizing tree with
  | nil => exact ⟨[], [], tree, .nil tree⟩
  | cons input rest ih =>
      by_cases h : ∃ after, Carries options config tree input after
      · obtain ⟨after, hcarries⟩ := h
        obtain ⟨kept, failed, final, hrest⟩ := ih after
        exact ⟨_, _, _, .carried hcarries hrest⟩
      · obtain ⟨kept, failed, final, hrest⟩ := ih tree
        exact ⟨_, _, _, .left h hrest⟩

-- The inputs that are kept go the same way without the others.
theorem InOrder.alone (h : InOrder options config tree inputs kept failed final) :
    InOrder options config tree kept kept [] final := by
  induction h with
  | nil tree => exact .nil tree
  | carried h _ ih => exact .carried h ih
  | left _ _ ih => exact ih

theorem Carries.run (h : Carries options config tree input after) :
    ∃ target, (buildInput FileTree.system options config input).run.run tree =
      (.ok target, after) := by
  obtain ⟨target, code, hdrafts, hwrite⟩ := h
  refine ⟨target, (buildInput_of_ok (draft_eq_ok_iff.mpr hdrafts)).trans ?_⟩
  rw [settle, hwrite]

-- Every failure comes before the one store, so that the tree is left alone.
theorem run_of_not_carries (h : ¬∃ after, Carries options config tree input after) :
    ∃ error, (buildInput FileTree.system options config input).run.run tree =
      (.error error, tree) := by
  cases hdraft : draft options config tree input with
  | error error => exact ⟨error, buildInput_of_error hdraft⟩
  | ok found =>
      obtain ⟨target, code⟩ := found
      cases hwrite : tree.write target code with
      | ok after => exact absurd ⟨after, target, code, draft_eq_ok_iff.mp hdraft, hwrite⟩ h
      | error reason =>
          refine ⟨.unwritable target reason, (buildInput_of_ok hdraft).trans ?_⟩
          rw [settle, hwrite]

theorem InOrder.run (h : InOrder options config tree inputs kept failed final) :
    ∃ results, (buildInputs FileTree.system options config inputs).run tree = (results, final) ∧
      (failures results).length = failed.length ∧ results.length = inputs.length := by
  induction h with
  | nil tree => exact ⟨[], rfl, rfl, rfl⟩
  | carried h _ ih =>
      obtain ⟨target, hinput⟩ := h.run
      obtain ⟨results, hrest, hfailed, hlength⟩ := ih
      exact ⟨_, buildInputs_cons hinput hrest, hfailed, congrArg (· + 1) hlength⟩
  | left h _ ih =>
      obtain ⟨error, hinput⟩ := run_of_not_carries h
      obtain ⟨results, hrest, hfailed, hlength⟩ := ih
      exact ⟨_, buildInputs_cons hinput hrest, congrArg (· + 1) hfailed,
        congrArg (· + 1) hlength⟩

-- Which inputs are given matters to no single one of them.
theorem buildInputs_inputs (options : BuildOptions) (config : Config) (part inputs : List String) :
    buildInputs FileTree.system { options with inputs := part } config inputs =
      buildInputs FileTree.system options config inputs := by
  induction inputs with
  | nil => rfl
  | cons input rest ih =>
      rw [buildInputs, buildInputs, ih]
      rfl

theorem Prepared.part (h : Prepared options tree config ready) (houtput : options.output = none)
    (part : List String) : Prepared { options with inputs := part } tree config ready := by
  refine ⟨?_, ?_, ?_⟩
  · cases h.loads with
    | default hnone => exact .default hnone
    | file hpath hread htext => exact .file hpath hread htext
  · rintro ⟨hsome, -⟩
    rw [houtput] at hsome
    cases hsome
  · cases h.makes with
    | unnamed hnone => exact .unnamed hnone
    | named hsome hmade => exact .named hsome hmade

theorem summary_of_none (h : failures results = []) : (summary results).exit = 0 := by
  rw [summary, if_pos h]
  rfl

theorem report_someFailed (failed total : Nat) :
    (CommandError.someFailed failed total).report =
      "Error: " ++ toString failed ++ " of " ++ toString total ++ " files failed to build\n" := by
  have hend : " files failed to build\n" = " files failed to build" ++ "\n" := by decide
  change "Error: " ++ (toString failed ++ " of " ++ toString total ++ _) ++ "\n" = _
  simp only [hend, String.append_assoc]

theorem summary_of_some (h : failures results ≠ []) :
    (summary results).exit = 1 ∧
      ∃ told, (summary results).stderr =
        told ++ ("Error: " ++ toString (failures results).length ++ " of " ++
          toString results.length ++ " files failed to build\n") := by
  rw [summary, if_neg h, ← report_someFailed]
  exact ⟨rfl, String.join ((failures results).map CommandError.reportInput), rfl⟩

theorem runInTree_of_command {args : List String} (tree : FileTree)
    (h : Arguments.command args = .ok (.build options)) :
    runInTree args tree = (build FileTree.system options).run tree := by
  rw [runInTree, run, h]
  rfl

-- A `build` that is refused touches no file. Otherwise the inputs that fail leave no trace: the
-- files are those that the inputs which are kept leave on their own, and the failed inputs are
-- counted.
theorem runInTree_traceless (args : List String) (tree : FileTree) (options : BuildOptions)
    (hargs : Arguments.command args = .ok (.build options)) :
    ((¬∃ config, Loads options tree config) ∨ IsCrowded options →
      (runInTree args tree).2 = tree ∧ (runInTree args tree).1.exit = 1) ∧
    ∀ config ready, options.output = none → Prepared options tree config ready →
      (∃ kept failed final, InOrder options config ready options.inputs kept failed final) ∧
      ∀ kept failed final, InOrder options config ready options.inputs kept failed final →
        (∀ fewer, Arguments.command fewer = .ok (.build { options with inputs := kept }) →
          (runInTree fewer tree).2 = (runInTree args tree).2) ∧
        (runInTree args tree).2 = final ∧
        ((runInTree args tree).1.exit = 0 ↔ failed = []) ∧
        (failed ≠ [] → (runInTree args tree).1.exit = 1 ∧
          ∃ told, (runInTree args tree).1.stderr =
            told ++ ("Error: " ++ toString failed.length ++ " of " ++
              toString options.inputs.length ++ " files failed to build\n")) := by
  rw [runInTree_of_command tree hargs]
  constructor
  · intro hrefused
    obtain ⟨error, hrun⟩ := build_of_refused hrefused
    rw [hrun]
    exact ⟨rfl, rfl⟩
  · intro config ready houtput hprepared
    refine ⟨exists_inOrder ready options.inputs, fun kept failed final horder => ?_⟩
    obtain ⟨results, hrun, hfailed, hlength⟩ := horder.run
    rw [build_of_prepared hprepared, hrun]
    refine ⟨fun fewer hfewer => ?_, rfl, ?_⟩
    · obtain ⟨others, halone, -⟩ := horder.alone.run
      rw [runInTree_of_command tree hfewer, build_of_prepared (hprepared.part houtput kept),
        buildInputs_inputs, halone]
      rfl
    · have hnone : failures results = [] ↔ failed = [] := by
        rw [← List.length_eq_zero_iff, hfailed, List.length_eq_zero_iff]
      rw [Ne, ← hnone, ← hfailed, ← hlength]
      refine ⟨⟨fun hexit => ?_, summary_of_none⟩, summary_of_some⟩
      by_contra hsome
      have hone := (summary_of_some hsome).1
      exact Nat.zero_ne_one (hexit.symm.trans hone)

section Crossed

theorem carries_of_toOption (target code : String)
    (hdraft : (draft options config tree input).toOption = some (target, code))
    (hwrite : (tree.write target code).toOption = some after) :
    Carries options config tree input after :=
  ⟨target, code, draft_eq_ok_iff.mp (toOption_eq_some_iff.mp hdraft),
    toOption_eq_some_iff.mp hwrite⟩

theorem not_carries_of_toOption (hdraft : (draft options config tree input).toOption = none) :
    ¬∃ after, Carries options config tree input after := by
  rintro ⟨after, target, code, hdrafts, -⟩
  rw [draft_eq_ok_iff.mpr hdrafts] at hdraft
  cases hdraft

-- Three files, and inputs of which the fourth is written for the first.

def crossed : FileTree :=
  .ofListing [("a.pjs", "x = 1\n"), ("bad.pjs", "if\n"), ("notes.txt", "")]

def crossedOptions : BuildOptions :=
  ⟨["a.pjs", "notes.txt", "bad.pjs", "a.js", "gone.js"], none, none, false, none⟩

def crossedOnce : FileTree := crossed.set ["work", "a.js"] (.file "let x;\nx = 1;\n".toUTF8)

def crossedTwice : FileTree := crossedOnce.set ["work", "a.pjs"] (.file "x = None\nx = 1\n".toUTF8)

theorem crossed_inOrder :
    InOrder crossedOptions .default crossed crossedOptions.inputs ["a.pjs", "a.js"]
      ["notes.txt", "bad.pjs", "gone.js"] crossedTwice := by
  have hfirst : Carries crossedOptions .default crossed "a.pjs" crossedOnce :=
    carries_of_toOption "a.js" "let x;\nx = 1;\n" (by decide +kernel) (by decide +kernel)
  have hfourth : Carries crossedOptions .default crossedOnce "a.js" crossedTwice :=
    carries_of_toOption "a.pjs" "x = None\nx = 1\n" (by decide +kernel) (by decide +kernel)
  refine .carried hfirst (.left ?_ (.left ?_ (.carried hfourth (.left ?_ (.nil _)))))
  · exact not_carries_of_toOption (by decide +kernel)
  · exact not_carries_of_toOption (by decide +kernel)
  · exact not_carries_of_toOption (by decide +kernel)

theorem runInTree_traceless_crossed :
    (runInTree ["build", "a.pjs", "a.js"] crossed).2 =
        (runInTree ("build" :: crossedOptions.inputs) crossed).2 ∧
      (runInTree ("build" :: crossedOptions.inputs) crossed).2 = crossedTwice ∧
      (runInTree ("build" :: crossedOptions.inputs) crossed).1.exit = 1 ∧
      (∃ told, (runInTree ("build" :: crossedOptions.inputs) crossed).1.stderr =
        told ++ "Error: 3 of 5 files failed to build\n") ∧
      (runInTree ["build", "a.pjs", "bad.pjs", "-o", "z.js"] crossed).2 = crossed := by
  have hargs : Arguments.command ("build" :: crossedOptions.inputs) =
      .ok (.build crossedOptions) := toOption_eq_some_iff.mp (by decide +kernel)
  have hfewer : Arguments.command ["build", "a.pjs", "a.js"] =
      .ok (.build { crossedOptions with inputs := ["a.pjs", "a.js"] }) :=
    toOption_eq_some_iff.mp (by decide +kernel)
  have hcrowded : Arguments.command ["build", "a.pjs", "bad.pjs", "-o", "z.js"] =
      .ok (.build ⟨["a.pjs", "bad.pjs"], some "z.js", none, false, none⟩) :=
    toOption_eq_some_iff.mp (by decide +kernel)
  have hprepared : Prepared crossedOptions crossed .default crossed :=
    ⟨.default rfl, by simp [IsCrowded, crossedOptions], .unnamed rfl⟩
  obtain ⟨hsame, hfinal, -, hcounted⟩ :=
    ((runInTree_traceless _ crossed _ hargs).2 _ _ rfl hprepared).2 _ _ _ crossed_inOrder
  obtain ⟨hexit, told, htold⟩ := hcounted (by simp)
  exact ⟨hsame _ hfewer, hfinal, hexit, ⟨told, htold⟩,
    ((runInTree_traceless _ crossed _ hcrowded).1 (.inr ⟨rfl, by decide⟩)).1⟩

end Crossed

end CommandLine

end Diglot
