import Diglot.Proofs.Build.Workshop

namespace Diglot

namespace CommandLine

-- Two inputs that do not disturb each other: once the program of the first is written, the second
-- still gives what it gave before, if anything, and its program does not replace that of the first.
def Apart (options : BuildOptions) (config : Config) (tree : FileTree) (first second : String) :
    Prop :=
  ∀ target code, Drafts options config tree first target code →
    ∀ after, tree.write target code = .ok after →
      (∀ other text, Drafts options config after second other text →
        ∀ last, after.write other text = .ok last → Drafts options config tree second other text) ∧
      ∀ other text, Drafts options config tree second other text →
        ∀ last, after.write other text = .ok last → last.read target = .ok code

-- Any two of some inputs, an input that is given twice among them.
def AllApart (options : BuildOptions) (config : Config) (tree : FileTree) (inputs : List String) :
    Prop :=
  ∀ (i j : Nat) (first second : String), i ≠ j → inputs[i]? = some first →
    inputs[j]? = some second → Apart options config tree first second

section Apart

-- Whether two inputs are apart, found out by trying.
def isApart (options : BuildOptions) (config : Config) (tree : FileTree) (first second : String) :
    Bool :=
  (draft options config tree first).toOption.all fun found =>
    (tree.write found.1 found.2).toOption.all fun after =>
      ((draft options config after second).toOption.all fun other =>
        (after.write other.1 other.2).toOption.all fun _ =>
          (draft options config tree second).toOption == some other) &&
      (draft options config tree second).toOption.all fun other =>
        (after.write other.1 other.2).toOption.all fun last =>
          (last.read found.1).toOption == some found.2

variable {options : BuildOptions} {config : Config} {tree now : FileTree}
  {first second target code other text : String} {place : Place}

theorem isApart_iff :
    isApart options config tree first second = true ↔ Apart options config tree first second := by
  simp only [isApart, Apart, Option.all_eq_true, Bool.and_eq_true, beq_iff_eq,
    toOption_eq_some_iff, Prod.forall, draft_eq_ok_iff]

instance : Decidable (Apart options config tree first second) :=
  decidable_of_iff _ isApart_iff

theorem allApart_iff {inputs : List String} :
    (∀ i j : Fin inputs.length, i ≠ j →
        Apart options config tree (inputs.get i) (inputs.get j)) ↔
      AllApart options config tree inputs := by
  constructor
  · intro h i j first second hne hi hj
    obtain ⟨hless, rfl⟩ := List.getElem?_eq_some_iff.mp hi
    obtain ⟨hlow, rfl⟩ := List.getElem?_eq_some_iff.mp hj
    exact h ⟨i, hless⟩ ⟨j, hlow⟩ fun heq => hne (congrArg Fin.val heq)
  · intro h i j hne
    exact h i j _ _ (fun heq => hne (Fin.ext heq)) (List.getElem?_eq_getElem i.2)
      (List.getElem?_eq_getElem j.2)

instance {inputs : List String} : Decidable (AllApart options config tree inputs) :=
  decidable_of_iff _ allApart_iff

theorem Drafts.of_read (h : Drafts options config now second other text)
    (hread : ∀ source, now.read second = .ok source → tree.read second = .ok source) :
    Drafts options config tree second other text := by
  obtain ⟨dialect, source, hdialect, hsource, htranspile, htarget⟩ := h
  exact ⟨dialect, source, hdialect, hread source hsource, htranspile, htarget⟩

-- Where the program of the first stands in the place that the second is read from.
theorem Apart.drafts (h : Apart options config tree first second)
    (hfirst : Drafts options config tree first target code) (hlands : tree.Lands target place)
    (hdirs : now.SameDirs tree) (hfile : now.find? place = some (.file code.toUTF8))
    (hinput : tree.locate second = .ok place)
    (hsecond : Drafts options config now second other text) {spot : Place}
    (hspot : tree.Lands other spot) :
    Drafts options config tree second other text := by
  have hafter := hlands.sameDirs code
  refine (h target code hfirst _ (hlands.write code)).1 other text ?_ _
    ((hafter.lands hspot).write text)
  refine hsecond.of_read fun source hread => ?_
  refine (hafter.trans hdirs.symm).read hread fun found hfound => ?_
  have heq : found = place := Except.ok.inj (hfound.symm.trans (hdirs.locate hinput))
  rw [heq, hlands.find?_set, hfile]

-- Where the programs of both belong in one place.
theorem Apart.code_eq (h : Apart options config tree first second)
    (hfirst : Drafts options config tree first target code) (hlands : tree.Lands target place)
    (hsecond : Drafts options config tree second other text) (hspot : tree.Lands other place) :
    text = code := by
  have hafter := hlands.sameDirs code
  have hlast := hafter.lands hspot
  have hread := (h target code hfirst _ (hlands.write code)).2 other text hsecond _
    (hlast.write text)
  have hfile := ((hlast.sameDirs text).lands (hafter.lands hlands)).read_iff.mp hread
  rw [hlast.find?_set] at hfile
  exact String.toByteArray_inj.mp (Node.file.inj (Option.some.inj hfile))

end Apart

namespace Workshop

section Sound

variable {options : BuildOptions} {config : Config} {ready : FileTree} {inputs : List String}
  {shop : Workshop} {i : Nat} {new : Job} {input target code : String}

-- What holds of jobs on inputs that are apart: each can write only what its input gives in the tree
-- that the work started from, and what is written stays.
structure Sound (options : BuildOptions) (config : Config) (ready : FileTree)
    (inputs : List String) (shop : Workshop) : Prop where
  named : ∀ {k : Nat} {job : Job}, shop.jobs[k]? = some job → inputs[k]? = some job.input
  dirs : shop.tree.SameDirs ready
  held : ∀ {k : Nat} {input target code : String} {place : Place},
    shop.jobs[k]? = some (.holding input target code) → ready.Lands target place →
      Drafts options config ready input target code
  kept : ∀ {k : Nat} {input target : String}, shop.jobs[k]? = some (.done input (.ok target)) →
    ∃ code place, Drafts options config ready input target code ∧ ready.Lands target place ∧
      shop.tree.find? place = some (.file code.toUTF8)
  files : ∀ place, shop.tree.find? place = ready.find? place ∨
    ∃ (k : Nat) (input target : String), shop.jobs[k]? = some (.done input (.ok target)) ∧
      ready.Lands target place

theorem sound_opened (inputs : List String) :
    Sound options config ready inputs (opened ready inputs) := by
  have hwaiting : ∀ {k : Nat} {job : Job}, (opened ready inputs).jobs[k]? = some job →
      ∃ input, inputs[k]? = some input ∧ job = .waiting input := by
    intro k job h
    rw [opened, List.getElem?_map, Option.map_eq_some_iff] at h
    obtain ⟨input, hinput, rfl⟩ := h
    exact ⟨input, hinput, rfl⟩
  refine ⟨fun h => ?_, .refl ready, fun h => ?_, fun h => ?_, fun place => .inl rfl⟩
  · obtain ⟨input, hinput, rfl⟩ := hwaiting h
    exact hinput
  · obtain ⟨input, -, hjob⟩ := hwaiting h
    cases hjob
  · obtain ⟨input, -, hjob⟩ := hwaiting h
    cases hjob

theorem getElem?_set_cases {jobs : List Job} {k : Nat} {job : Job}
    (h : (jobs.set i new)[k]? = some job) : k = i ∧ job = new ∨ k ≠ i ∧ jobs[k]? = some job := by
  by_cases hk : k = i
  · subst hk
    rw [List.getElem?_set_self (by simpa using (List.getElem?_eq_some_iff.mp h).1)] at h
    exact .inl ⟨rfl, (Option.some.inj h).symm⟩
  · rw [List.getElem?_set_ne (Ne.symm hk)] at h
    exact .inr ⟨hk, h⟩

-- A job goes on without writing.
theorem Sound.set (h : Sound options config ready inputs shop) {old : Job}
    (hjob : shop.jobs[i]? = some old) (hinput : new.input = old.input)
    (hold : ∀ input target, old ≠ .done input (.ok target))
    (hnew : ∀ input target, new ≠ .done input (.ok target))
    (hheld : ∀ input target code place, new = .holding input target code →
      ready.Lands target place → Drafts options config ready input target code) :
    Sound options config ready inputs ⟨shop.tree, shop.jobs.set i new⟩ := by
  refine ⟨fun hk => ?_, h.dirs, fun hk hlands => ?_, fun hk => ?_, fun place => ?_⟩
  · obtain ⟨rfl, rfl⟩ | ⟨-, hk⟩ := getElem?_set_cases hk
    · rw [hinput]
      exact h.named hjob
    · exact h.named hk
  · obtain ⟨rfl, heq⟩ | ⟨-, hk⟩ := getElem?_set_cases hk
    · exact hheld _ _ _ _ heq.symm hlands
    · exact h.held hk hlands
  · obtain ⟨rfl, heq⟩ | ⟨-, hk⟩ := getElem?_set_cases hk
    · exact absurd heq.symm (hnew _ _)
    · exact h.kept hk
  · refine (h.files place).imp_right ?_
    rintro ⟨k, input, target, hk, hlands⟩
    refine ⟨k, input, target, ?_, hlands⟩
    rw [List.getElem?_set_ne, hk]
    rintro rfl
    exact hold _ _ (Option.some.inj (hjob.symm.trans hk))

-- A job reads its input, which another may have written in the meantime.
theorem Sound.drafts (h : Sound options config ready inputs shop)
    (hapart : AllApart options config ready inputs) {spot : Place}
    (hjob : shop.jobs[i]? = some (.waiting input))
    (hdrafts : Drafts options config shop.tree input target code)
    (hspot : ready.Lands target spot) :
    Drafts options config ready input target code := by
  obtain ⟨_, source, -, hread, -, -⟩ := id hdrafts
  obtain ⟨place, hlocate, hfile, -⟩ := FileTree.read_eq_ok_iff.mp hread
  rcases h.files place with hsame | ⟨k, first, other, hk, hlands⟩
  · refine hdrafts.of_read fun source hread => h.dirs.symm.read hread fun found hfound => ?_
    rw [Except.ok.inj (hfound.symm.trans hlocate), hsame]
  · obtain ⟨text, found, hfirst, hfound, hwritten⟩ := h.kept hk
    obtain rfl : place = found := hfound.unique hlands
    have hne : k ≠ i := by
      rintro rfl
      cases Option.some.inj (hk.symm.trans hjob)
    exact (hapart k i _ _ hne (h.named hk) (h.named hjob)).drafts hfirst hfound h.dirs hwritten
      (h.dirs.symm.locate hlocate) hdrafts hspot

-- A job writes its program.
theorem Sound.write (h : Sound options config ready inputs shop)
    (hapart : AllApart options config ready inputs) {after : FileTree}
    (hjob : shop.jobs[i]? = some (.holding input target code))
    (hwrite : shop.tree.write target code = .ok after) :
    Sound options config ready inputs ⟨after, shop.jobs.set i (.done input (.ok target))⟩ := by
  obtain ⟨place, hnow, rfl⟩ := FileTree.write_eq_ok_iff.mp hwrite
  have hlands := h.dirs.symm.lands hnow
  have hdrafts := h.held hjob hlands
  refine ⟨fun hk => ?_, (hnow.sameDirs code).trans h.dirs, fun hk hspot => ?_, fun hk => ?_,
    fun other => ?_⟩
  · obtain ⟨rfl, rfl⟩ | ⟨-, hk⟩ := getElem?_set_cases hk
    · have hnamed := h.named hjob
      exact hnamed
    · exact h.named hk
  · obtain ⟨rfl, heq⟩ | ⟨-, hk⟩ := getElem?_set_cases hk
    · cases heq
    · exact h.held hk hspot
  · obtain ⟨rfl, heq⟩ | ⟨hne, hother⟩ := getElem?_set_cases hk
    · cases heq
      exact ⟨code, place, hdrafts, hlands, hnow.find?_set code⟩
    · obtain ⟨text, found, hfirst, hfound, hfile⟩ := h.kept hother
      refine ⟨text, found, hfirst, hfound, ?_⟩
      by_cases heq : found = place
      · subst heq
        have hpair := hapart _ i _ _ hne (h.named hother) (h.named hjob)
        rw [hnow.find?_set, hpair.code_eq hfirst hfound hdrafts hlands]
      · rw [FileTree.find?_set_ne _ heq, hfile]
  · by_cases heq : other = place
    · subst heq
      refine .inr ⟨i, input, target, ?_, hlands⟩
      exact List.getElem?_set_self (List.getElem?_eq_some_iff.mp hjob).1
    · rw [FileTree.find?_set_ne _ heq]
      refine (h.files other).imp_right ?_
      rintro ⟨k, first, found, hk, hfound⟩
      refine ⟨k, first, found, ?_, hfound⟩
      rw [List.getElem?_set_ne, hk]
      rintro rfl
      cases Option.some.inj (hjob.symm.trans hk)

theorem Sound.turn (h : Sound options config ready inputs shop)
    (hapart : AllApart options config ready inputs) (i : Nat) :
    Sound options config ready inputs (shop.turn options config i) := by
  cases hjob : shop.jobs[i]? with
  | none => rwa [turn_eq_self hjob]
  | some job =>
      rw [turn_eq hjob]
      have hmoves : Moves options config shop.tree job (job.advance options config shop.tree) :=
        moves_advance job shop.tree
      generalize job.advance options config shop.tree = moved at hmoves
      cases hmoves with
      | refused input error => exact h.set hjob rfl (by simp) (by simp) (by simp)
      | drafted hdrafts =>
          refine h.set hjob rfl (by simp) (by simp) fun _ _ _ spot heq hspot => ?_
          cases heq
          exact h.drafts hapart hjob hdrafts hspot
      | unwritten input target code error => exact h.set hjob rfl (by simp) (by simp) (by simp)
      | written input hwrite => exact h.write hapart hjob hwrite
      | still input result =>
          have hsame : shop.jobs.set i (.done input result) = shop.jobs := by
            obtain ⟨hi, heq⟩ := List.getElem?_eq_some_iff.mp hjob
            rw [← heq]
            exact List.set_getElem_self hi
          simp only [hsame]
          exact h

theorem Sound.run (h : Sound options config ready inputs shop)
    (hapart : AllApart options config ready inputs) (turns : List Nat) :
    Sound options config ready inputs (shop.run options config turns) := by
  induction turns generalizing shop with
  | nil => exact h
  | cons i rest ih => exact ih (h.turn hapart i)

theorem Sound.keeps (h : Sound options config ready inputs shop) :
    Keeps options config ready shop := by
  intro input written hmem
  obtain ⟨k, hk⟩ := mem_results.mp hmem
  obtain ⟨code, place, hdrafts, hlands, hfile⟩ := h.kept hk
  exact ⟨code, hdrafts, (h.dirs.lands hlands).read_iff.mpr hfile⟩

end Sound

section Necessity

variable {options : BuildOptions} {config : Config} {ready after last : FileTree}
  {inputs : List String} {i j : Nat} {first second target code other text : String}

-- The first input is done before the second is read, and the program of the second is written after
-- all others.
theorem AlwaysKeeps.drafts (h : AlwaysKeeps options config ready inputs) (hne : i ≠ j)
    (hi : inputs[i]? = some first) (hj : inputs[j]? = some second)
    (hfirst : Drafts options config ready first target code)
    (hwrite : ready.write target code = .ok after)
    (hsecond : Drafts options config after second other text)
    (hlast : after.write other text = .ok last) :
    Drafts options config ready second other text := by
  let others := inTurn ((List.range inputs.length).filter (· ≠ j))
  have hfree : j ∉ others := by simp [others, inTurn]
  let read := (opened ready inputs).turn options config i
  let written := read.turn options config i
  let held := written.turn options config j
  let rest := held.run options config others
  obtain ⟨hreadTree, hread⟩ : read.tree = ready ∧ read.jobs[i]? = _ :=
    turn_reads (getElem?_opened hi) hfirst
  obtain ⟨hwrittenTree, hwritten⟩ : written.tree = after ∧ written.jobs[i]? = _ :=
    turn_writes hread (hreadTree ▸ hwrite)
  have hwaiting : written.jobs[j]? = some (.waiting second) := by
    rw [getElem?_turn_ne hne.symm, getElem?_turn_ne hne.symm]
    exact getElem?_opened hj
  obtain ⟨hheldTree, hheld⟩ : held.tree = written.tree ∧ held.jobs[j]? = _ :=
    turn_reads hwaiting (hwrittenTree ▸ hsecond)
  have hrest : rest.jobs[j]? = some (.holding second other text) := by
    rw [getElem?_run_of_not_mem hfree, hheld]
  obtain ⟨place, hlands, -⟩ := FileTree.write_eq_ok_iff.mp hlast
  have hdirs : rest.tree.SameDirs after := hwrittenTree ▸ hheldTree ▸ sameDirs_run others
  have hfinal := (hdirs.lands hlands).write text
  obtain ⟨hdoneTree, hdone⟩ : (rest.turn options config j).tree = _ ∧
      (rest.turn options config j).jobs[j]? = _ := turn_writes hrest hfinal
  have hrun : (opened ready inputs).run options config (i :: i :: j :: (others ++ [j])) =
      rest.turn options config j := run_append others [j]
  have hall : ((opened ready inputs).run options config (i :: i :: j :: (others ++ [j]))).isDone
      = true := by
    refine isDone_iff.mpr fun k job hjob => ?_
    have hlength := lt_of_getElem?_run hjob
    rw [hrun] at hjob
    by_cases hk : k = j
    · subst hk
      rw [hdone] at hjob
      cases hjob
      rfl
    · rw [getElem?_turn_ne hk] at hjob
      exact isDone_of_inTurn (by simp [hlength, hk]) hjob
  have hkeeps := h _ hall
  rw [hrun] at hkeeps
  obtain ⟨found, hdrafts, hfound⟩ := hkeeps second other (mem_results.mpr ⟨j, hdone⟩)
  rw [hdoneTree, FileTree.read_of_write hfinal] at hfound
  cases hfound
  exact hdrafts

-- Both inputs are read before the program of either is written.
theorem AlwaysKeeps.read (h : AlwaysKeeps options config ready inputs) (hne : i ≠ j)
    (hi : inputs[i]? = some first) (hj : inputs[j]? = some second)
    (hfirst : Drafts options config ready first target code)
    (hwrite : ready.write target code = .ok after)
    (hsecond : Drafts options config ready second other text)
    (hlast : after.write other text = .ok last) : last.read target = .ok code := by
  let others := inTurn (List.range inputs.length)
  let one := (opened ready inputs).turn options config i
  let both := one.turn options config j
  let written := both.turn options config i
  let settled := written.turn options config j
  obtain ⟨honeTree, hone⟩ : one.tree = ready ∧ one.jobs[i]? = _ :=
    turn_reads (getElem?_opened hi) hfirst
  have hwaiting : one.jobs[j]? = some (.waiting second) := by
    rw [getElem?_turn_ne hne.symm]
    exact getElem?_opened hj
  obtain ⟨hbothTree, hboth⟩ : both.tree = one.tree ∧ both.jobs[j]? = _ :=
    turn_reads hwaiting (honeTree ▸ hsecond)
  have hfirstHeld : both.jobs[i]? = some (.holding first target code) := by
    rw [getElem?_turn_ne hne, hone]
  obtain ⟨hwrittenTree, hwritten⟩ : written.tree = after ∧ written.jobs[i]? = _ :=
    turn_writes hfirstHeld (hbothTree ▸ honeTree ▸ hwrite)
  have hsecondHeld : written.jobs[j]? = some (.holding second other text) := by
    rw [getElem?_turn_ne hne.symm, hboth]
  obtain ⟨hsettledTree, hsettled⟩ : settled.tree = last ∧ settled.jobs[j]? = _ :=
    turn_writes hsecondHeld (hwrittenTree ▸ hlast)
  have hkept : settled.jobs[i]? = some (.done first (.ok target)) := by
    rw [getElem?_turn_ne hne, hwritten]
  let final := settled.run options config others
  have hkeeps : Keeps options config ready final :=
    h (i :: j :: i :: j :: others) (isDone_iff.mpr fun k job hjob =>
      isDone_of_inTurn (List.mem_range.mpr (lt_of_getElem?_run hjob)) hjob)
  obtain ⟨found, hdrafts, hfound⟩ :=
    hkeeps first target (mem_results.mpr ⟨i, getElem?_run_done hkept⟩)
  obtain ⟨said, hsaid, hread⟩ :=
    hkeeps second other (mem_results.mpr ⟨j, getElem?_run_done hsettled⟩)
  rw [(hfirst.unique hdrafts).2] at hfound
  rw [(hsecond.unique hsaid).2] at hread
  obtain ⟨place, hlands, rfl⟩ := FileTree.write_eq_ok_iff.mp hwrite
  obtain ⟨spot, hspot, rfl⟩ := FileTree.write_eq_ok_iff.mp hlast
  have hlater := (hspot.sameDirs text).lands ((hlands.sameDirs code).lands hlands)
  have hdirs : final.tree.SameDirs _ := hsettledTree ▸ sameDirs_run others
  refine hlater.read_iff.mpr ?_
  by_cases heq : spot = place
  · subst heq
    have hfile := (hdirs.lands hlater).read_iff.mp hfound
    rw [(hdirs.lands ((hspot.sameDirs text).lands hspot)).read_iff.mp hread] at hfile
    rw [hspot.find?_set, hfile]
  · rw [FileTree.find?_set_ne _ (Ne.symm heq), hlands.find?_set]

end Necessity

end Workshop

section Outcome

variable {options : BuildOptions} {config : Config} {tree ready : FileTree}

-- Nothing is lost in any order of the accesses exactly if any two inputs are apart. The work starts
-- from the files as they were, and `build` takes one of these orders.
theorem alwaysKeeps_iff_allApart (h : Prepared options tree config ready) :
    (∀ place bytes,
      tree.find? place = some (.file bytes) ↔ ready.find? place = some (.file bytes)) ∧
    (∃ turns,
      ((Workshop.opened ready options.inputs).run options config turns).isDone = true ∧
      (build FileTree.system options).run tree =
        (summary ((Workshop.opened ready options.inputs).run options config turns).results,
          ((Workshop.opened ready options.inputs).run options config turns).tree)) ∧
    (Workshop.AlwaysKeeps options config ready options.inputs ↔
      AllApart options config ready options.inputs) := by
  refine ⟨h.makes.find?, exists_run_eq_build h, fun hkeeps => ?_, fun hapart turns _ => ?_⟩
  · intro i j first second hne hi hj target code hfirst after hwrite
    exact ⟨fun _ _ hsecond _ => hkeeps.drafts hne hi hj hfirst hwrite hsecond,
      fun _ _ hsecond _ => hkeeps.read hne hi hj hfirst hwrite hsecond⟩
  · exact ((Workshop.sound_opened options.inputs).run hapart turns).keeps

-- Two notations side by side, with an input that is given twice.

def sideBySide : FileTree :=
  .ofListing [("src/a.pjs", "x = 1\n"), ("src/b.js", "let y = 2;\n")]

def sideBySideOptions : BuildOptions :=
  ⟨["src/a.pjs", "src/b.js", "src/a.pjs"], none, some "out", false, none⟩

def sideBySideReady : FileTree := (FileTree.makeDirs "out" sideBySide).2

theorem alwaysKeeps_sideBySide :
    Prepared sideBySideOptions sideBySide .default sideBySideReady ∧
      AllApart sideBySideOptions .default sideBySideReady sideBySideOptions.inputs ∧
      Workshop.AlwaysKeeps sideBySideOptions .default sideBySideReady
        sideBySideOptions.inputs := by
  have hmade : FileTree.makeDirs "out" sideBySide = (.ok (), sideBySideReady) :=
    Prod.ext (toOption_eq_some_iff.mp (by decide +kernel)) rfl
  have hprepared : Prepared sideBySideOptions sideBySide .default sideBySideReady :=
    ⟨.default rfl, by simp [IsCrowded, sideBySideOptions], .named rfl hmade⟩
  have hapart : AllApart sideBySideOptions .default sideBySideReady sideBySideOptions.inputs := by
    decide +kernel
  exact ⟨hprepared, hapart, (alwaysKeeps_iff_allApart hprepared).2.2.mpr hapart⟩

-- Two inputs of one name, in different directories.
def namesakes : FileTree :=
  .ofListing [("a/x.pjs", "x = 1\n"), ("b/x.pjs", "x = 2\n")]

-- Both are reported as written to one file, which only has the program of the second.
theorem runInTree_namesakes :
    (runInTree ["build", "a/x.pjs", "b/x.pjs", "--out-dir", "out"] namesakes).1 =
        ⟨0, "a/x.pjs -> out/x.js\nb/x.pjs -> out/x.js\n", ""⟩ ∧
      (Diglot.transpile .default .pythonScript "x = 1\n").toOption = some "let x;\nx = 1;\n" ∧
      ((runInTree ["build", "a/x.pjs", "b/x.pjs", "--out-dir", "out"] namesakes).2.read
        "out/x.js").toOption = some "let x;\nx = 2;\n" := by
  decide +kernel

end Outcome

end CommandLine

end Diglot
