import Diglot.Braced.DraftStmt
import Diglot.Indented.DraftStmt
import Diglot.Transpile

namespace Diglot

-- Writes a statement to a draft in a notation.
def draftStmt (target : Dialect) (ctx : Context) (stmt : Stmt) : Drafting Unit :=
  match target with
  | .pythonScript => Indented.draftStmt ctx stmt
  | .javaScript => Braced.draftStmt ctx stmt

-- Writes a whole program to a draft in a notation.
def draftModule (target : Dialect) (module : Module) : Drafting Unit :=
  match target with
  | .pythonScript => Indented.draftModule module
  | .javaScript => Braced.draftModule module

-- A text that grows by what is written to it, in one notation with levels of one width.
structure Generator extends Draft where
  target : Dialect
  deriving Repr

namespace Generator

-- Nothing written yet.
def new (target : Dialect) (width : Nat) : Generator := ⟨Draft.new width, target⟩

-- Writes behind what is there. Nothing is written if that fails.
def append (generator : Generator) (drafting : Drafting Unit) : Generator :=
  match drafting.run generator.toDraft with
  | some ((), draft) => { generator with toDraft := draft }
  | none => generator

-- Writes a whole program.
def module (generator : Generator) (module : Module) : Generator :=
  generator.append (draftModule generator.target module)

-- Writes a statement, in a place of its own choice.
def statement (generator : Generator) (ctx : Context) (stmt : Stmt) : Generator :=
  generator.append (draftStmt generator.target ctx stmt)

-- The text of an expression. It is not written, but its placeholders count.
def expression (generator : Generator) (ctx : Context) (expr : Expr) : String × Generator :=
  match generator.target with
  | .pythonScript =>
      (Indented.writeExpr expr,
        { generator with placeholders := generator.placeholders + Indented.countExpr expr })
  | .javaScript => (Braced.writeExpr ctx.inMethod expr, generator)

end Generator

end Diglot
