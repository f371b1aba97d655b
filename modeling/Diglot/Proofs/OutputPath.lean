import Diglot.Path
import Diglot.Proofs.Pieces
import Mathlib.Data.List.TakeWhile

namespace Diglot

namespace Path

-- Slashes and `/.` parts, as they may stand behind a file name.
inductive IsTail : List Char → Prop
  | nil : IsTail []
  | slash {tail : List Char} (h : IsTail tail) : IsTail ('/' :: tail)
  | here {tail : List Char} (h : IsTail tail) : IsTail ('/' :: '.' :: tail)

-- A path with a file name: what stands in front of the name, the name, and what stands behind it.
structure Named (path front name tail : List Char) : Prop where
  eq : path = front ++ name ++ tail
  front : ∀ c ∈ front.getLast?, c = '/'
  slash : '/' ∉ name
  name : name ≠ [] ∧ name ≠ ['.'] ∧ name ≠ ['.', '.']
  tail : IsTail tail

section Splitting

variable {path front name tail : List Char}

theorem IsTail.append {more : List Char} (h : IsTail tail) (hmore : IsTail more) :
    IsTail (tail ++ more) := by
  induction h with
  | nil => exact hmore
  | slash _ ih => exact ih.slash
  | here _ ih => exact ih.here

-- What is dropped from the end of a path is a tail, and a tail is always dropped.

theorem exists_isTail_of_dropTail (reversed : List Char) :
    ∃ tail, IsTail tail ∧ reversed = tail.reverse ++ dropTail reversed := by
  fun_induction dropTail reversed with
  | case1 rest ih =>
      obtain ⟨tail, htail, hrest⟩ := ih
      exact ⟨tail ++ ['/'], htail.append (.slash .nil), by simpa using hrest⟩
  | case2 rest ih =>
      obtain ⟨tail, htail, hrest⟩ := ih
      exact ⟨tail ++ ['/', '.'], htail.append (.here .nil), by simpa using hrest⟩
  | case3 rest => exact ⟨[], .nil, rfl⟩

theorem dropTail_reverse_append (h : IsTail tail) (rest : List Char) :
    dropTail (tail.reverse ++ rest) = dropTail rest := by
  induction h generalizing rest with
  | nil => rfl
  | slash _ ih => simpa [dropTail] using ih ('/' :: rest)
  | here _ ih => simpa [dropTail] using ih ('.' :: '/' :: rest)

-- Nothing of a name is dropped, unless it is a single dot.
theorem dropTail_name (hslash : '/' ∉ name) (hempty : name ≠ []) (hdot : name ≠ ['.'])
    (rest : List Char) : dropTail (name.reverse ++ rest) = name.reverse ++ rest := by
  have hmem : ∀ c ∈ name.reverse, c ≠ '/' := by
    intro c hc heq
    exact hslash (heq ▸ List.mem_reverse.mp hc)
  cases hreversed : name.reverse with
  | nil => exact absurd (List.reverse_eq_nil_iff.mp hreversed) hempty
  | cons last others =>
      rw [hreversed] at hmem
      obtain ⟨hlast, hothers⟩ := List.forall_mem_cons.mp hmem
      cases others with
      | nil =>
          have hlastDot : last ≠ '.' := by
            rintro rfl
            exact hdot (by simpa using congrArg List.reverse hreversed)
          simp [dropTail, hlast, hlastDot]
      | cons before others =>
          have hbefore := hothers before (.head _)
          simp [dropTail, hlast, hbefore]

theorem head?_reverse_any (hfront : ∀ c ∈ front.getLast?, c = '/') :
    front.reverse.head?.any (· != '/') = false := by
  rw [List.head?_reverse]
  cases hlast : front.getLast? with
  | none => rfl
  | some c => simp [hfront c hlast]

theorem takeWhile_reverse_name (hslash : '/' ∉ name) (hfront : ∀ c ∈ front.getLast?, c = '/') :
    (name.reverse ++ front.reverse).takeWhile (· != '/') = name.reverse := by
  rw [takeWhile_append_of_head (head?_reverse_any hfront)]
  refine List.takeWhile_eq_self_iff.mpr fun c hc => ?_
  have hne : c ≠ '/' := fun heq => hslash (heq ▸ List.mem_reverse.mp hc)
  simpa using hne

theorem split?_of_named (h : Named path front name tail) : split? path = some (front, name) := by
  obtain ⟨rfl, hfront, hslash, ⟨hempty, hdot, hdots⟩, htail⟩ := h
  have hreversed : (front ++ name ++ tail).reverse =
      tail.reverse ++ (name.reverse ++ front.reverse) := by simp
  have htake := takeWhile_reverse_name hslash hfront
  have hdrop : (name.reverse ++ front.reverse).dropWhile (· != '/') = front.reverse := by
    have hparts := List.takeWhile_append_dropWhile (p := (· != '/')) (l := name.reverse ++ front.reverse)
    rw [htake] at hparts
    exact List.append_cancel_left hparts
  simp only [split?, hreversed, dropTail_reverse_append htail, dropTail_name hslash hempty hdot,
    htake, hdrop, List.reverse_reverse, hempty, hdot, hdots, or_self, if_false]

theorem exists_named_of_split? (h : split? path = some (front, name)) :
    ∃ tail, Named path front name tail := by
  obtain ⟨tail, htail, hpath⟩ := exists_isTail_of_dropTail path.reverse
  unfold split? at h
  dsimp only at h
  generalize dropTail path.reverse = reversed at h hpath
  split at h
  · cases h
  · rename_i hname
    cases h
    simp only [not_or] at hname
    refine ⟨tail, ?_, ?_, ?_, hname, htail⟩
    · rw [← List.reverse_append, List.takeWhile_append_dropWhile, ← List.reverse_reverse path, hpath]
      simp
    · intro c hc
      rw [List.getLast?_reverse] at hc
      have hfails := List.head?_dropWhile_not (p := (· != '/')) reversed
      rw [hc] at hfails
      simpa using hfails
    · intro hmem
      have hall := List.mem_takeWhile_imp (List.mem_reverse.mp hmem)
      simp at hall

theorem split?_eq_some_iff :
    split? path = some (front, name) ↔ ∃ tail, Named path front name tail :=
  ⟨exists_named_of_split?, fun ⟨_, h⟩ => split?_of_named h⟩

-- A path that ends in `..` has no file name.
theorem split?_dots (hfront : ∀ c ∈ front.getLast?, c = '/') :
    split? (front ++ ['.', '.']) = none := by
  have hdrop : dropTail ('.' :: '.' :: front.reverse) = '.' :: '.' :: front.reverse := by
    simp [dropTail]
  have hslash : '/' ∉ ['.', '.'] := by decide
  have htake : ('.' :: '.' :: front.reverse).takeWhile (· != '/') = ['.', '.'] :=
    takeWhile_reverse_name hslash hfront
  simp [split?, hdrop, htake]

theorem take_stem (stem extension : List Char) :
    (stem ++ '.' :: extension).take ((stem ++ '.' :: extension).length - extension.length - 1) =
      stem := by
  have hlength : (stem ++ '.' :: extension).length - extension.length - 1 = stem.length := by
    simp only [List.length_append, List.length_cons]
    omega
  rw [hlength, List.take_left]

-- The last dot of a name divides it, unless it comes first.
theorem splitName_eq_iff {stem extension : List Char} :
    splitName name = (stem, some extension) ↔
      name = stem ++ '.' :: extension ∧ stem ≠ [] ∧ '.' ∉ extension := by
  constructor
  · intro h
    have hparts := List.takeWhile_append_dropWhile (p := (· != '.')) (l := name.reverse)
    have hinside : '.' ∉ (name.reverse.takeWhile (· != '.')).reverse := by
      intro hmem
      simpa using List.mem_takeWhile_imp (List.mem_reverse.mp hmem)
    have hfails := List.head?_dropWhile_not (p := (· != '.')) name.reverse
    unfold splitName at h
    dsimp only at h
    generalize name.reverse.takeWhile (· != '.') = behind at h hparts hinside
    split at h
    · cases h
    · rename_i hstem
      cases h
      refine ⟨?_, hstem, hinside⟩
      cases hrest : name.reverse.dropWhile (· != '.') with
      | nil =>
          -- Without a dot there would be nothing in front of it.
          rw [hrest, List.append_nil] at hparts
          have hlength := congrArg List.length hparts
          simp only [List.length_reverse] at hlength
          exact absurd (by simp [hlength]) hstem
      | cons dot before =>
          rw [hrest] at hparts hfails
          obtain rfl : dot = '.' := by simpa using hfails
          have hname : name = before.reverse ++ '.' :: behind.reverse := by
            simpa using (congrArg List.reverse hparts).symm
          rw [hname, take_stem]
  · rintro ⟨rfl, hstem, hextension⟩
    have hreversed : (stem ++ '.' :: extension).reverse =
        extension.reverse ++ '.' :: stem.reverse := by simp
    have htake : (extension.reverse ++ '.' :: stem.reverse).takeWhile (· != '.') =
        extension.reverse := by
      rw [takeWhile_append_of_head rfl]
      refine List.takeWhile_eq_self_iff.mpr fun c hc => ?_
      have hne : c ≠ '.' := fun heq => hextension (heq ▸ List.mem_reverse.mp hc)
      simpa using hne
    simp only [splitName, hreversed, htake, List.reverse_reverse, take_stem, hstem, if_false]

end Splitting

section Extensions

variable {path : String} {front stem extension tail : List Char}

theorem extension?_eq_some_iff {found : String} :
    extension? path = some found ↔ ∃ front stem tail,
      Named path.toList front (stem ++ '.' :: found.toList) tail ∧ stem ≠ [] ∧
        '.' ∉ found.toList := by
  unfold extension?
  simp only [Option.bind_eq_bind, Option.bind_eq_some_iff, Option.pure_def, Option.some.injEq,
    Prod.exists]
  constructor
  · rintro ⟨front, name, hsplit, extension, hextension, rfl⟩
    obtain ⟨tail, hnamed⟩ := split?_eq_some_iff.mp hsplit
    obtain ⟨stem, hname⟩ : ∃ stem, splitName name = (stem, some extension) :=
      ⟨(splitName name).1, Prod.ext rfl hextension⟩
    obtain ⟨rfl, hstem, hdot⟩ := splitName_eq_iff.mp hname
    rw [String.toList_ofList]
    exact ⟨front, stem, tail, hnamed, hstem, hdot⟩
  · rintro ⟨front, stem, tail, hnamed, hstem, hdot⟩
    have hname := splitName_eq_iff.mpr ⟨rfl, hstem, hdot⟩
    exact ⟨front, _, split?_of_named hnamed, found.toList, by rw [hname], String.ofList_toList⟩

-- A file name changes its extension, and loses what stands behind it.
theorem withExtension_of_named (h : Named path.toList front (stem ++ '.' :: extension) tail)
    (hstem : stem ≠ []) (hdot : '.' ∉ extension) (other : String) :
    withExtension path other =
      if stem = ['.'] ∧ tail = [] then String.ofList (front ++ ['.', '.'])
      else String.ofList (front ++ stem ++ '.' :: other.toList) := by
  have hname : splitName (stem ++ '.' :: extension) = (stem, some extension) :=
    splitName_eq_iff.mpr ⟨rfl, hstem, hdot⟩
  have htail : path.toList = front ++ (stem ++ '.' :: extension) ↔ tail = [] := by
    rw [h.eq, List.append_right_eq_self]
  simp only [withExtension, split?_of_named h, hname, htail]

theorem Named.renamed (h : Named path.toList front (stem ++ '.' :: extension) tail)
    (hstem : stem ≠ []) {other : List Char} (hother : other ≠ []) (hslash : '/' ∉ other) :
    Named (front ++ (stem ++ '.' :: other)) front (stem ++ '.' :: other) [] := by
  have hlength : 3 ≤ (stem ++ '.' :: other).length := by
    have := List.length_pos_iff.mpr hstem
    have := List.length_pos_iff.mpr hother
    simp only [List.length_append, List.length_cons]
    omega
  refine ⟨by simp, h.front, ?_, ⟨?_, ?_, ?_⟩, .nil⟩
  · have hstemSlash : '/' ∉ stem := fun hmem => h.slash (List.mem_append_left _ hmem)
    simp [hstemSlash, hslash]
  all_goals
    intro heq
    rw [heq] at hlength
    simp at hlength

end Extensions

end Path

namespace Dialect

open Diglot.Path

theorem ofPath?_eq_some_iff {path : String} {dialect : Dialect} :
    ofPath? path = some dialect ↔ extension? path = some dialect.extension := by
  unfold ofPath?
  split
  · rename_i hextension
    rw [hextension]
    cases dialect <;> simp [extension]
  · rename_i hextension
    rw [hextension]
    cases dialect <;> simp [extension]
  · rename_i hpjs hjs
    cases dialect
    · simpa [extension] using hpjs
    · simpa [extension] using hjs

-- The parts of both extensions.
theorem extension_parts (dialect : Dialect) :
    dialect.extension.toList ≠ [] ∧ '/' ∉ dialect.extension.toList ∧
      '.' ∉ dialect.extension.toList := by
  cases dialect <;> decide

theorem extension_target_ne (dialect : Dialect) (tail : List Char) :
    dialect.target.extension.toList ≠ dialect.extension.toList ++ tail := by
  have hpjs : "pjs".toList = ['p', 'j', 's'] := rfl
  have hjs : "js".toList = ['j', 's'] := rfl
  cases dialect <;> simp [target, extension, hpjs, hjs]

section Inverting

variable {front stem : List Char}

-- A path that ends in `..` tells no notation and takes no extension.
theorem outputPath_dots (dialect : Dialect) (hfront : ∀ c ∈ front.getLast?, c = '/') :
    ofPath? (String.ofList (front ++ ['.', '.'])) = none ∧
      dialect.outputPath (String.ofList (front ++ ['.', '.'])) =
        String.ofList (front ++ ['.', '.']) := by
  have hsplit : split? (String.ofList (front ++ ['.', '.'])).toList = none := by
    rw [String.toList_ofList, split?_dots hfront]
  constructor
  · simp only [ofPath?, extension?, hsplit, Option.bind_eq_bind, Option.bind_none]
  · simp only [outputPath, withExtension, hsplit]

-- A dot and its extension are never taken back to what they were.
theorem dots_ne (dialect : Dialect) (front : List Char) :
    String.ofList (front ++ ['.', '.']) ≠
      String.ofList (front ++ ['.'] ++ '.' :: dialect.extension.toList) := by
  intro heq
  obtain ⟨hne, -, -⟩ := extension_parts dialect
  simpa [hne] using String.ofList_injective heq

-- A path that ends in its file name, and that tells a notation, changes its extension.
theorem outputPath_named (dialect : Dialect) (hstem : stem ≠ [])
    (h : Named (front ++ (stem ++ '.' :: dialect.extension.toList)) front
      (stem ++ '.' :: dialect.extension.toList) []) :
    ofPath? (String.ofList (front ++ stem ++ '.' :: dialect.extension.toList)) = some dialect ∧
      dialect.outputPath (String.ofList (front ++ stem ++ '.' :: dialect.extension.toList)) =
        if stem = ['.'] then String.ofList (front ++ ['.', '.'])
        else String.ofList (front ++ stem ++ '.' :: dialect.target.extension.toList) := by
  obtain ⟨-, -, hdot⟩ := extension_parts dialect
  rw [← List.append_assoc,
    ← String.toList_ofList (l := front ++ stem ++ '.' :: dialect.extension.toList)] at h
  constructor
  · exact ofPath?_eq_some_iff.mpr
      (extension?_eq_some_iff.mpr ⟨front, stem, [], h, hstem, hdot⟩)
  · rw [outputPath, withExtension_of_named h hstem hdot]
    simp only [and_true]

end Inverting

-- A path that tells a notation has an output path other than itself. That tells the notation which
-- the file is carried over to, unless the name is a dot and its extension and nothing stands behind
-- it. Carried back, it is the path up to its file name, unless the name is a dot and its extension.
theorem outputPath_inverts_iff {path : String} {dialect : Dialect}
    (h : ofPath? path = some dialect) :
    ∃ front stem tail, stem ≠ [] ∧
      Named path.toList front (stem ++ '.' :: dialect.extension.toList) tail ∧
      dialect.outputPath path ≠ path ∧
      (ofPath? (dialect.outputPath path) = some dialect.target ↔ stem ≠ ['.'] ∨ tail ≠ []) ∧
      (dialect.target.outputPath (dialect.outputPath path) =
        String.ofList (front ++ stem ++ '.' :: dialect.extension.toList) ↔ stem ≠ ['.']) := by
  obtain ⟨front, stem, tail, hnamed, hstem, hdot⟩ :=
    extension?_eq_some_iff.mp (ofPath?_eq_some_iff.mp h)
  obtain ⟨hother, hslash, -⟩ := extension_parts dialect.target
  have hforth : dialect.outputPath path = _ :=
    withExtension_of_named hnamed hstem hdot dialect.target.extension
  refine ⟨front, stem, tail, hstem, hnamed, ?_⟩
  by_cases hlost : stem = ['.'] ∧ tail = []
  · -- What is left ends in `..`, which is no file name.
    rw [if_pos hlost] at hforth
    obtain ⟨rfl, rfl⟩ := hlost
    obtain ⟨htold, hback⟩ := outputPath_dots dialect.target hnamed.front
    rw [hforth, htold, hback]
    refine ⟨fun heq => dots_ne dialect front ?_, by simp, ?_⟩
    · rw [heq, ← String.toList_inj, hnamed.eq]
      simp
    · simp only [dots_ne, ne_eq, not_true_eq_false]
  · rw [if_neg hlost] at hforth
    have hrenamed := hnamed.renamed hstem hother hslash
    obtain ⟨htold, hback⟩ := outputPath_named dialect.target hstem hrenamed
    rw [hforth, htold, hback, target_target]
    refine ⟨fun heq => ?_, by simpa using not_and_or.mp hlost, ?_⟩
    · have hpath := congrArg String.toList heq
      rw [hnamed.eq] at hpath
      simp [extension_target_ne] at hpath
    · by_cases hdots : stem = ['.']
      · simp only [hdots, if_true, dots_ne, ne_eq, not_true_eq_false]
      · simp only [hdots, if_false, ne_eq, not_false_eq_true]

-- A name with several dots in a directory with dots, and slashes and dots behind it.
theorem outputPath_inverts_iff_dottedNames :
    ofPath? "a.b/..c.js//./" = some .javaScript ∧
      javaScript.outputPath "a.b/..c.js//./" ≠ "a.b/..c.js//./" ∧
      ofPath? (javaScript.outputPath "a.b/..c.js//./") = some .pythonScript ∧
      pythonScript.outputPath (javaScript.outputPath "a.b/..c.js//./") = "a.b/..c.js" := by
  have htold : ofPath? "a.b/..c.js//./" = some .javaScript := by decide +kernel
  obtain ⟨front, stem, tail, -, hnamed, hne, hover, hback⟩ := outputPath_inverts_iff htold
  have hsplit : split? "a.b/..c.js//./".toList = some ("a.b/".toList, "..c.js".toList) := by
    decide +kernel
  rw [split?_of_named hnamed, Option.some.injEq, Prod.mk.injEq] at hsplit
  obtain ⟨rfl, hname⟩ := hsplit
  have hstem : stem = "..c".toList :=
    List.append_cancel_right (hname.trans (rfl : _ = "..c".toList ++ '.' :: "js".toList))
  have hdots : stem ≠ ['.'] := by
    rw [hstem]
    decide
  refine ⟨htold, hne, hover.mpr (.inl hdots), (hback.mpr hdots).trans ?_⟩
  rw [hstem]
  decide +kernel

-- A name that is a dot and its extension has an output path without a file name.
theorem ofPath?_outputPath_dot :
    ofPath? "..js" = some .javaScript ∧ javaScript.outputPath "..js" = ".." ∧
      ofPath? (javaScript.outputPath "..js") = none := by
  decide +kernel

end Dialect

end Diglot
