import Diglot.Proofs.Indented.TidyLines

namespace Diglot

-- Whether the paths of all imports of a program are free of line feeds and backslashes, as those
-- are that consist of letters, digits, `_`, `.` and `/`.
def Module.hasPlainPaths (module : Module) : Bool := module.body.all (·.all Indented.hasPlainPath)

theorem tidyLines_write {source : String} {module : Module}
    (h : parse .javaScript source = .ok module) (hpaths : module.hasPlainPaths = true) :
    Indented.TidyLines (write .pythonScript module) := by
  have hworded := Braced.worded_of_parse h
  have hplain := List.all_eq_true.mp hpaths
  exact Indented.tidyLines_writeStmts
    (fun stmt hstmt => Indented.tidyStmt_of_worded (hworded stmt hstmt) (hplain stmt hstmt))
    Indented.tidyUpdate_none

-- The width of a level does not matter. Whatever program of the braced notation is carried over, its
-- text at any two widths has the same tokens, but for the widths that indents state, or none for the
-- same cause. It is read as the same program up to places, or fails to be read for the same cause.
theorem read_render_width_irrel {source : String} {module : Module}
    (h : parse .javaScript source = .ok module) (hpaths : module.hasPlainPaths = true)
    {width wide : Nat} (hwidth : 0 < width) (hwide : 0 < wide) :
    Indented.seenTokens false (tokenize .pythonScript ((write .pythonScript module).render width)) =
        Indented.seenTokens false
          (tokenize .pythonScript ((write .pythonScript module).render wide)) ∧
      outcome false (parse .pythonScript ((write .pythonScript module).render width)) =
        outcome false (parse .pythonScript ((write .pythonScript module).render wide)) :=
  have htidy := tidyLines_write h hpaths
  ⟨Indented.seenTokens_render htidy hwidth hwide, Indented.outcome_render htidy hwidth hwide⟩

-- Nested blocks, an import, a template with a line feed and an expression, and a string that ends
-- with a line feed and a backslash.
def nestedBlocks : String :=
  "import \x7b a as b \x7d from './m.js'; class P \x7b f(x) \x7b if (x > 1) \x7b x = `$\x7bx\x7d\n` \x7d " ++
  "else \x7b g('\\n\\\\') \x7d \x7d \x7d"

theorem read_render_width_irrel_nestedBlocks :
    ∃ module, parse .javaScript nestedBlocks = .ok module ∧ module.hasPlainPaths = true ∧
      (parse .pythonScript ((write .pythonScript module).render 1)).toOption.isSome = true ∧
      Indented.seenTokens false (tokenize .pythonScript ((write .pythonScript module).render 1)) =
          Indented.seenTokens false
            (tokenize .pythonScript ((write .pythonScript module).render 7)) ∧
        outcome false (parse .pythonScript ((write .pythonScript module).render 1)) =
          outcome false (parse .pythonScript ((write .pythonScript module).render 7)) := by
  have hmodule : (parse .javaScript nestedBlocks).toOption.map (fun module =>
      (module.hasPlainPaths,
        (parse .pythonScript ((write .pythonScript module).render 1)).toOption.isSome)) =
          some (true, true) := by
    decide +kernel
  cases hparse : parse .javaScript nestedBlocks with
  | error failure =>
      rw [hparse] at hmodule
      cases hmodule
  | ok module =>
      rw [hparse] at hmodule
      obtain ⟨hpaths, hread⟩ := Prod.mk.inj (Option.some.inj hmodule)
      exact ⟨module, rfl, hpaths, hread,
        read_render_width_irrel hparse hpaths (by decide) (by decide)⟩

end Diglot
