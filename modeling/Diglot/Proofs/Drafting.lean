import Diglot.Draft
import Diglot.Proofs.Scanner

namespace Diglot

namespace Draft

-- A draft with lines behind it, which start at its level.
def append (draft : Draft) (fragment : Fragment) : Draft :=
  { draft with
    output := draft.output ++ String.ofList (fragment.textAt draft.width draft.depth)
    placeholders := draft.placeholders + fragment.placeholders }

-- A draft that is one level further in.
def deeper (draft : Draft) : Draft := { draft with depth := draft.depth + 1 }

-- A draft that is inside one more loop.
def inLoop (update : Option Stmt) (draft : Draft) : Draft :=
  { draft with updates := update :: draft.updates }

variable (draft : Draft) (first second : Fragment)

@[simp]
theorem update_append : (draft.append first).update = draft.update := rfl

@[simp]
theorem update_deeper : draft.deeper.update = draft.update := rfl

@[simp]
theorem update_inLoop (update : Option Stmt) : (draft.inLoop update).update = update := rfl

theorem append_empty : draft.append .empty = draft := by
  have htext : Fragment.textAt draft.width draft.depth .empty = [] := rfl
  rw [append, htext, String.ofList_nil, String.append_empty]
  rfl

theorem append_append : (draft.append first).append second = draft.append (first ++ second) := by
  simp [append, Fragment.textAt_append, String.ofList_append, String.append_assoc, Nat.add_assoc]

-- Whether a draft has grown can be told from its size, since each line has an end.
theorem utf8ByteSize_append_eq_iff :
    (draft.append first).output.utf8ByteSize = draft.output.utf8ByteSize ↔ first.lines = [] := by
  have hsize : (draft.append first).output.utf8ByteSize = draft.output.utf8ByteSize +
      (String.ofList (first.textAt draft.width draft.depth)).utf8ByteSize :=
    String.utf8ByteSize_append
  rw [hsize, Nat.add_eq_left, String.utf8ByteSize_eq_zero_iff, String.ofList_eq_empty_iff]
  cases hlines : first.lines with
  | nil => simp [Fragment.textAt, hlines]
  | cons line rest => simp [Fragment.textAt, hlines]

end Draft

namespace Drafting

variable {α β : Type} {draft after : Draft} {fragment : Fragment}

theorem bind_of_run {writing : Drafting α} {a : α} (h : writing draft = some (a, after))
    (rest : α → Drafting β) : (writing >>= rest) draft = rest a after := by
  change (writing draft).bind _ = _
  rw [h]
  rfl

-- Writing comes to an end, and lines behind a draft are all that it changes about it. No level has
-- been left that was not gone into.
def Appends (writing : Drafting Unit) (draft : Draft) (fragment : Fragment) : Prop :=
  writing draft = some ((), draft.append fragment)

theorem appends_nothing : Appends (pure ()) draft .empty := by
  rw [Appends, Draft.append_empty]
  rfl

theorem appends_line (phrase : Phrase) : Appends (line phrase) draft (.phrase phrase) := by
  have htext : Line.render (String.ofList (List.replicate draft.width ' '))
      ⟨draft.depth, phrase.text⟩ =
        String.ofList (Fragment.textAt draft.width draft.depth (.phrase phrase)) := by
    have hrender := @Fragment.toList_render draft.width ⟨[⟨draft.depth, phrase.text⟩], 0⟩
    rw [← String.toList_inj, String.toList_ofList, Fragment.textAt_phrase]
    simpa [Fragment.render, Fragment.textAt] using hrender
  rw [Appends, Draft.append, ← htext]
  rfl

theorem Appends.then {writing rest : Drafting Unit} {more : Fragment}
    (h : Appends writing draft fragment) (hrest : Appends rest (draft.append fragment) more) :
    Appends (do writing; rest) draft (fragment ++ more) := by
  rw [Appends, bind_of_run h, hrest, Draft.append_append]

theorem run_indent : indent draft = some ((), draft.deeper) := rfl

-- What was written further in are lines further in, seen from the level that is gone back to.
theorem run_dedent :
    dedent (draft.deeper.append fragment) = some ((), draft.append fragment.indent) := by
  have htext : draft.append fragment.indent =
      { draft.deeper.append fragment with depth := draft.depth } := by
    rw [Draft.append, Fragment.textAt_indent]
    rfl
  rw [htext]
  rfl

theorem run_enterLoop (update : Option Stmt) :
    enterLoop update draft = some ((), draft.inLoop update) := rfl

theorem run_leaveLoop (update : Option Stmt) :
    leaveLoop ((draft.inLoop update).append fragment) = some ((), draft.append fragment) := rfl

theorem run_innermostUpdate : innermostUpdate draft = some (draft.update, draft) := rfl

theorem run_written : written draft = some (draft.output.utf8ByteSize, draft) := rfl

end Drafting

end Diglot
