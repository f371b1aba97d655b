import Diglot.Proofs.Termination

namespace Diglot

-- Whatever tokens a program is read from, all its statements and all expressions in them, those
-- inside interpolated texts too, have the parts that their kinds need and are of its notation.
theorem parseTokens_shaped {dialect : Dialect} {tokens : List Token} {module : Module}
    (h : parseTokens dialect tokens = .ok module) :
    ∀ stmt ∈ module.body, stmt.all (Stmt.isShaped dialect) = true := by
  obtain ⟨limits, hmodule⟩ := isModule_of_parseTokens h
  intro stmt hstmt
  have hshaped := (hmodule.body.stmts stmt hstmt).shaped
  rwa [dialect_settingOf] at hshaped

-- An interpolated text inside another, with a chain of comparisons, and no end behind it.
def unendedTexts : List Token :=
  [⟨.identifier, "a", ⟨1, 1⟩⟩, ⟨.operator, "=", ⟨1, 1⟩⟩,
    ⟨.interpolated, "\x7d\x7b\x7b\x7bf'\x7bx < y in z\x7d !'\x7d", ⟨7, 7⟩⟩, ⟨.newline, "", ⟨1, 1⟩⟩]

theorem parseTokens_shaped_unendedTexts :
    ∃ module, parseTokens .pythonScript unendedTexts = .ok module ∧ module.body.length = 1 ∧
      ∀ stmt ∈ module.body, stmt.all (Stmt.isShaped .pythonScript) = true := by
  have hlength : (parseTokens .pythonScript unendedTexts).toOption.map (·.body.length) = some 1 := by
    decide +kernel
  cases hmodule : parseTokens .pythonScript unendedTexts with
  | error failure =>
      rw [hmodule] at hlength
      cases hlength
  | ok module =>
      rw [hmodule] at hlength
      exact ⟨module, rfl, Option.some.inj hlength, parseTokens_shaped hmodule⟩

end Diglot
