import Diglot.FileTree

namespace Diglot

namespace FileTree

variable {tree ready after : FileTree} {path text : String} {place : Place} {bytes : ByteArray}

theorem fromUTF8?_eq_some_iff : String.fromUTF8? bytes = some text ↔ bytes = text.toUTF8 := by
  unfold String.fromUTF8?
  constructor
  · intro h
    split at h
    · cases h
      rfl
    · cases h
  · rintro rfl
    exact dif_pos text.isValidUTF8

theorem read_eq_ok_iff :
    tree.read path = .ok text ↔
      ∃ place, tree.locate path = .ok place ∧ tree.find? place = some (.file text.toUTF8) ∧
        Path.endsInSlash path = false := by
  constructor
  · intro h
    cases hlocate : tree.locate path with
    | error reason => simp [read, hlocate, bind, Except.bind] at h
    | ok place =>
        cases hfind : tree.find? place with
        | none => simp [read, hlocate, bind, Except.bind, hfind] at h
        | some node =>
            cases node with
            | directory => simp [read, hlocate, bind, Except.bind, hfind] at h
            | file found =>
                simp only [read, hlocate, bind, Except.bind, hfind] at h
                split at h
                · cases h
                · next hslash =>
                    split at h
                    · next hbytes =>
                        cases h
                        rw [fromUTF8?_eq_some_iff.mp hbytes] at hfind
                        exact ⟨place, rfl, hfind, by simpa using hslash⟩
                    · cases h
  · rintro ⟨place, hlocate, hfind, hslash⟩
    simp only [read, hlocate, bind, Except.bind, hfind, hslash, fromUTF8?_eq_some_iff.mpr rfl]
    rfl

-- A path leads to a place where a file can be written.
def Lands (tree : FileTree) (path : String) (place : Place) : Prop :=
  tree.locate path = .ok place ∧ tree.find? place ≠ some .directory ∧
    Path.endsInSlash path = false

theorem Lands.ne_root (h : Lands tree path place) : place ≠ [] := by
  rintro rfl
  exact h.2.1 rfl

theorem Lands.unique {other : Place} (h : Lands tree path place)
    (hother : Lands tree path other) : other = place :=
  Except.ok.inj (hother.1.symm.trans h.1)

theorem Lands.read_iff (h : Lands tree path place) :
    tree.read path = .ok text ↔ tree.find? place = some (.file text.toUTF8) := by
  rw [read_eq_ok_iff]
  constructor
  · rintro ⟨found, hlocate, hfile, -⟩
    rwa [Except.ok.inj (hlocate.symm.trans h.1)] at hfile
  · intro hfile
    exact ⟨place, h.1, hfile, h.2.2⟩

theorem write_eq_ok_iff :
    tree.write path text = .ok after ↔
      ∃ place, Lands tree path place ∧ after = tree.set place (.file text.toUTF8) := by
  unfold write Lands
  cases hlocate : tree.locate path with
  | error reason => simp [bind, Except.bind]
  | ok place =>
      simp only [bind, Except.bind, pure, Except.pure, Except.ok.injEq]
      split
      · next hrefused =>
          simp only [reduceCtorEq, false_iff, not_exists]
          rintro other ⟨⟨rfl, hdirectory, hslash⟩, -⟩
          rcases hrefused with hfound | hends
          · exact hdirectory hfound
          · exact Bool.false_ne_true (hslash.symm.trans hends)
      · next hrefused =>
          simp only [not_or, Bool.not_eq_true] at hrefused
          constructor
          · intro h
            cases h
            exact ⟨place, ⟨rfl, hrefused⟩, rfl⟩
          · rintro ⟨other, ⟨rfl, -⟩, rfl⟩
            rfl

theorem Lands.write (h : Lands tree path place) (text : String) :
    tree.write path text = .ok (tree.set place (.file text.toUTF8)) :=
  write_eq_ok_iff.mpr ⟨place, h, rfl⟩

theorem Lands.find?_set (h : Lands tree path place) (text : String) :
    (tree.set place (.file text.toUTF8)).find? place = some (.file text.toUTF8) :=
  find?_set_self tree h.ne_root _

-- Two trees that have the same directories, so that paths lead to the same places in them.
def SameDirs (tree ready : FileTree) : Prop :=
  tree.current = ready.current ∧
    ∀ place, tree.find? place = some .directory ↔ ready.find? place = some .directory

theorem SameDirs.refl (tree : FileTree) : SameDirs tree tree :=
  ⟨rfl, fun _ => Iff.rfl⟩

theorem SameDirs.symm (h : SameDirs tree ready) : SameDirs ready tree :=
  ⟨h.1.symm, fun place => (h.2 place).symm⟩

theorem SameDirs.trans (h : SameDirs after tree) (hready : SameDirs tree ready) :
    SameDirs after ready :=
  ⟨h.1.trans hready.1, fun place => (h.2 place).trans (hready.2 place)⟩

theorem SameDirs.walk (h : SameDirs tree ready) {names : List String} {origin : Place}
    (hwalk : ready.walk origin names = .ok place) : tree.walk origin names = .ok place := by
  induction names generalizing origin with
  | nil => exact hwalk
  | cons name rest ih =>
      cases hfind : ready.find? origin with
      | none => simp [FileTree.walk, hfind] at hwalk
      | some node =>
          cases node with
          | file text => simp [FileTree.walk, hfind] at hwalk
          | directory =>
              simp only [FileTree.walk, hfind] at hwalk
              simp only [FileTree.walk, (h.2 origin).mpr hfind]
              exact ih hwalk

theorem SameDirs.locate (h : SameDirs tree ready) (hlocate : ready.locate path = .ok place) :
    tree.locate path = .ok place := by
  unfold FileTree.locate FileTree.start at hlocate ⊢
  split at hlocate
  · cases hlocate
  · next hempty =>
      rw [if_neg hempty, h.1]
      exact h.walk hlocate

theorem SameDirs.lands (h : SameDirs tree ready) (hlands : Lands ready path place) :
    Lands tree path place :=
  ⟨h.locate hlands.1, fun hfind => hlands.2.1 ((h.2 place).mp hfind), hlands.2.2⟩

-- Writing a file makes and removes no directory.
theorem Lands.sameDirs (h : Lands tree path place) (text : String) :
    SameDirs (tree.set place (.file text.toUTF8)) tree := by
  refine ⟨rfl, fun other => ?_⟩
  by_cases heq : other = place
  · subst heq
    rw [h.find?_set text]
    exact ⟨fun hfind => (by cases hfind), fun hfind => absurd hfind h.2.1⟩
  · rw [find?_set_ne tree heq]

-- What can be read where the same directories stand and the file is the same.
theorem SameDirs.read (h : SameDirs after tree) (hread : tree.read path = .ok text)
    (hfind : ∀ place, tree.locate path = .ok place → after.find? place = tree.find? place) :
    after.read path = .ok text := by
  obtain ⟨place, hlocate, hfile, hslash⟩ := read_eq_ok_iff.mp hread
  exact read_eq_ok_iff.mpr ⟨place, h.locate hlocate, (hfind place hlocate).trans hfile, hslash⟩

theorem read_of_write (h : tree.write path text = .ok after) : after.read path = .ok text := by
  obtain ⟨place, hlands, rfl⟩ := write_eq_ok_iff.mp h
  exact ((hlands.sameDirs text).lands hlands).read_iff.mpr (hlands.find?_set text)

section Made

theorem find?_makeDir {origin : Place} {names : List String}
    (h : tree.makeDir origin names = .ok after) :
    tree.find? place = some (.file bytes) ↔ after.find? place = some (.file bytes) := by
  unfold makeDir at h
  cases hwalk : tree.walk origin names with
  | error reason => simp [hwalk, bind, Except.bind] at h
  | ok made =>
      simp only [hwalk, bind, Except.bind, pure, Except.pure] at h
      split at h
      · cases h
      · next hfree =>
          cases h
          by_cases heq : place = made
          · subst heq
            have hroot : place ≠ [] := by
              rintro rfl
              exact hfree rfl
            rw [find?_set_self tree hroot, Option.not_isSome_iff_eq_none.mp hfree]
            exact ⟨fun hfile => (by cases hfile), fun hfile => (by cases hfile)⟩
          · rw [find?_set_ne tree heq]

-- Directories are made only where nothing stands, so that no file is lost.
theorem find?_makeChain (origin : Place) (chain : List (List String)) (tree : FileTree) :
    tree.find? place = some (.file bytes) ↔
      (makeChain origin chain tree).2.find? place = some (.file bytes) := by
  induction chain generalizing tree with
  | nil => exact Iff.rfl
  | cons names above ih =>
      unfold makeChain
      split
      · next made hmade => exact find?_makeDir hmade
      · split
        · next hchain => exact (ih tree).trans (by rw [hchain])
        · next upper hchain =>
            have hupper := (ih tree).trans (by rw [hchain])
            split
            · next made hmade => exact hupper.trans (find?_makeDir hmade)
            · exact hupper
      · exact Iff.rfl

theorem find?_makeDirs (path : String) (tree : FileTree) (place : Place) (bytes : ByteArray) :
    tree.find? place = some (.file bytes) ↔
      (makeDirs path tree).2.find? place = some (.file bytes) :=
  find?_makeChain _ _ tree

end Made

end FileTree

end Diglot
