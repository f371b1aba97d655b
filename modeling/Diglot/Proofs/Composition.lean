import Diglot.Generator
import Diglot.Proofs.Braced.Drafted
import Diglot.Proofs.Indented.Drafted
import Diglot.Proofs.Termination

namespace Diglot

open Drafting
open Indented (isClause updateLines)

-- A statement, however deep inside others, of a program that can be read.
inductive Stmt.Parsed : Stmt → Prop
  | outer {dialect : Dialect} {tokens : List Token} {module : Module} {stmt : Stmt}
      (h : parseTokens dialect tokens = .ok module) (hstmt : stmt ∈ module.body) : Parsed stmt
  | inner {stmt child : Stmt} (h : Parsed stmt) (hchild : child ∈ stmt.children) : Parsed child

theorem Stmt.Parsed.clausal {stmt : Stmt} (h : stmt.Parsed) : stmt.Clausal := by
  induction h with
  | outer h hstmt =>
      obtain ⟨limits, hmodule⟩ := isModule_of_parseTokens h
      exact (hmodule.body.stmts _ hstmt).clausal
  | inner _ hchild ih => exact (Stmt.all_iff.mp ih).2 _ hchild

theorem Stmt.Parsed.drafted {stmt : Stmt} (h : stmt.Parsed) : Indented.Drafted stmt :=
  Indented.drafted_of_clausal h.clausal

theorem Draft.append_new (width : Nat) (fragment : Fragment) :
    (Draft.new width).append fragment =
      ⟨width, fragment.render width, 0, [], fragment.placeholders⟩ := by
  have htext : fragment.render width = String.ofList (fragment.textAt width 0) := by
    rw [← Fragment.toList_render, String.ofList_toList]
  rw [htext, append, new, String.empty_append, Nat.zero_add]

theorem write_append (first second : List Stmt) (pos : Pos) :
    write .pythonScript ⟨first ++ second, pos⟩ =
      write .pythonScript ⟨first, pos⟩ ++ write .pythonScript ⟨second, pos⟩ :=
  Indented.writeStmts_append first second

-- Writing a statement to a draft succeeds, so that no level is left at the margin, and appends its
-- lines, which is all that happens to the draft: its level and the loops around are as before. The
-- lines depend on the draft by its level and its width and, in the indented notation, by what the
-- innermost loop does at the end of a round. There this is a clause of one line, as it is in all
-- loops that can be read; with an arbitrary statement in its place, writing need not end. So a
-- program of two parts is written as one part behind the other.
theorem draftStmt_compositional :
    (∀ (ctx : Context) (stmt : Stmt) (draft : Draft),
      (draftStmt .javaScript ctx stmt).run draft =
        some ((), draft.append (Braced.writeStmt ctx stmt))) ∧
    (∀ (ctx : Context) (stmt : Stmt) (draft : Draft), stmt.Parsed →
      draft.update.all isClause = true →
        (draftStmt .pythonScript ctx stmt).run draft =
          some ((), draft.append (Indented.writeStmt ctx (updateLines draft.update) stmt))) ∧
    (∀ stmt : Stmt, stmt.Parsed → ∀ clause ∈ stmt.clauses, isClause clause = true) ∧
    ∀ (width : Nat) (first second : List Stmt) (pos : Pos),
      (∀ stmt ∈ first ++ second, stmt.Parsed) →
        (draftModule .pythonScript ⟨first ++ second, pos⟩).run (.new width) =
          some ((), ⟨width,
            (write .pythonScript ⟨first, pos⟩).render width ++
              (write .pythonScript ⟨second, pos⟩).render width, 0, [],
            (write .pythonScript ⟨first, pos⟩).placeholders +
              (write .pythonScript ⟨second, pos⟩).placeholders⟩) := by
  refine ⟨fun ctx stmt => Braced.drafted stmt ctx, fun ctx stmt draft h => h.drafted ctx draft,
    fun stmt h => List.all_eq_true.mp (Stmt.all_iff.mp h.clausal).1, fun width first second pos h => ?_⟩
  have hbody : Appends (draftModule .pythonScript ⟨first ++ second, pos⟩) (.new width)
      (write .pythonScript ⟨first ++ second, pos⟩) :=
    Indented.appends_stmts (fun stmt hstmt => (h stmt hstmt).drafted) .toplevel (.new width) rfl
  rwa [Appends, write_append, Draft.append_new, Fragment.render_append] at hbody

-- A loop that leaves each round early behind a text that cannot be read.
def skippingLoop : Stmt :=
  .forClauses none none (some (.augAssign (.var "i" ⟨1, 9⟩) .add (.number "2" ⟨1, 14⟩) ⟨1, 9⟩))
    [.expr (.template "$\x7b\x7d" ⟨1, 19⟩) ⟨1, 19⟩, .continues ⟨1, 25⟩] ⟨1, 1⟩

def skippingTokens : List Token :=
  [⟨.keyword, "for", ⟨1, 1⟩⟩, ⟨.operator, "(", ⟨1, 5⟩⟩, ⟨.operator, ";", ⟨1, 6⟩⟩,
    ⟨.operator, ";", ⟨1, 7⟩⟩, ⟨.identifier, "i", ⟨1, 9⟩⟩, ⟨.operator, "+=", ⟨1, 11⟩⟩,
    ⟨.number, "2", ⟨1, 14⟩⟩, ⟨.operator, ")", ⟨1, 15⟩⟩, ⟨.operator, "\x7b", ⟨1, 17⟩⟩,
    ⟨.template, "$\x7b\x7d", ⟨1, 19⟩⟩, ⟨.operator, ";", ⟨1, 24⟩⟩,
    ⟨.keyword, "continue", ⟨1, 25⟩⟩, ⟨.operator, "\x7d", ⟨1, 33⟩⟩]

theorem parsed_skippingLoop : skippingLoop.Parsed :=
  .outer (show parseTokens .javaScript skippingTokens = .ok ⟨[skippingLoop], ⟨1, 1⟩⟩ from rfl)
    (.head _)

-- Two levels in, inside the loop.
def skippingDraft : Draft :=
  ⟨3, "a\n", 2, [some (.augAssign (.var "i" ⟨1, 9⟩) .add (.number "2" ⟨1, 14⟩) ⟨1, 9⟩), none], 4⟩

theorem draftStmt_compositional_skippingLoop :
    (Stmt.continues ⟨1, 25⟩).Parsed ∧ skippingDraft.update.all isClause = true ∧
      (draftStmt .pythonScript .classBody (.continues ⟨1, 25⟩)).run skippingDraft =
        some ((), { skippingDraft with output := "a\n      i += 2\n      continue\n" }) ∧
      (draftModule .pythonScript ⟨[skippingLoop] ++ [skippingLoop], ⟨1, 1⟩⟩).run (.new 1) =
        some ((), ⟨1, "while True:\n \"$\x7b\x7d\"\n i += 2\n continue\n i += 2\n" ++
          "while True:\n \"$\x7b\x7d\"\n i += 2\n continue\n i += 2\n", 0, [], 2⟩) := by
  obtain ⟨-, hstmt, -, hmodule⟩ := draftStmt_compositional
  have hcontinues : (Stmt.continues ⟨1, 25⟩).Parsed :=
    .inner parsed_skippingLoop (by simp [skippingLoop, Stmt.children])
  refine ⟨hcontinues, rfl, ?_, ?_⟩
  · rw [hstmt .classBody _ skippingDraft hcontinues rfl]
    rfl
  · have htext : (write .pythonScript ⟨[skippingLoop], ⟨1, 1⟩⟩).render 1 =
        "while True:\n \"$\x7b\x7d\"\n i += 2\n continue\n i += 2\n" := by decide +kernel
    have hcount : (write .pythonScript ⟨[skippingLoop], ⟨1, 1⟩⟩).placeholders = 1 := by decide +kernel
    rw [hmodule 1 [skippingLoop] [skippingLoop] ⟨1, 1⟩ (by simp [parsed_skippingLoop]), htext, hcount]

end Diglot
