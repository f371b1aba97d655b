import Diglot.Fragment
import Diglot.Syntax.Stmt

namespace Diglot

-- A text that is being written line by line.
structure Draft where
  -- Spaces per level.
  width : Nat
  output : String
  -- The level of the next line.
  depth : Nat
  -- What each of the loops around does at the end of a round, the innermost first. Only a loop with
  -- three clauses does something.
  updates : List (Option Stmt)
  placeholders : Nat
  deriving Repr

namespace Draft

-- Nothing written yet.
def new (width : Nat) : Draft := ⟨width, "", 0, [], 0⟩

-- What the innermost loop around does at the end of a round.
def update (draft : Draft) : Option Stmt := draft.updates.head?.join

end Draft

-- Writes to a draft, unless it fails or never ends.
abbrev Drafting := StateT Draft Option

namespace Drafting

-- Writes a line at the current level.
def line (phrase : Phrase) : Drafting Unit := modify fun draft =>
  { draft with
    output := draft.output ++
      Line.render (String.ofList (List.replicate draft.width ' ')) ⟨draft.depth, phrase.text⟩
    placeholders := draft.placeholders + phrase.placeholders }

-- Goes a level further in.
def indent : Drafting Unit := modify fun draft => { draft with depth := draft.depth + 1 }

-- Goes back a level. It fails at the margin, where there is none to go back from.
def dedent : Drafting Unit := do
  let draft ← get
  match draft.depth with
  | 0 => failure
  | depth + 1 => set { draft with depth := depth }

-- Goes into a loop with the given update.
def enterLoop (update : Option Stmt) : Drafting Unit := modify fun draft =>
  { draft with updates := update :: draft.updates }

-- Goes out of the innermost loop.
def leaveLoop : Drafting Unit := modify fun draft => { draft with updates := draft.updates.tail }

def innermostUpdate : Drafting (Option Stmt) := do return (← get).update

-- The bytes written so far.
def written : Drafting Nat := do return (← get).output.utf8ByteSize

end Drafting

end Diglot
