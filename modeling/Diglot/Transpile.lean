import Diglot.Braced.ReadStmt
import Diglot.Braced.WriteStmt
import Diglot.Config
import Diglot.Indented.ReadStmt
import Diglot.Indented.WriteStmt
import Diglot.Prelude

namespace Diglot

-- The tokens of a program in a notation.
def tokenize (dialect : Dialect) (source : String) : Except Failure (List Token) :=
  match dialect with
  | .pythonScript => Indented.tokenize source
  | .javaScript => Braced.tokenize source

-- The program that a list of tokens of a notation says.
def parseTokens (dialect : Dialect) (tokens : List Token) : Except Failure Module :=
  match dialect with
  | .pythonScript => Indented.parse tokens
  | .javaScript => Braced.parse tokens

-- The program that a text in a notation says.
def parse (dialect : Dialect) (source : String) : Except Failure Module := do
  parseTokens dialect (← tokenize dialect source)

-- The expression that a list of tokens of a notation starts with.
def parseExprTokens (dialect : Dialect) (tokens : List Token) : Except Failure Expr :=
  match dialect with
  | .pythonScript => Indented.readExpr tokens
  | .javaScript => Braced.readExpr tokens

-- The expression that a text in a notation starts with.
def parseExpr (dialect : Dialect) (source : String) : Except Failure Expr := do
  parseExprTokens dialect (← tokenize dialect source)

-- The lines of a program in a notation.
def write (target : Dialect) (module : Module) : Fragment :=
  match target with
  | .pythonScript => Indented.writeModule module
  | .javaScript => Braced.writeModule module

-- Why a program cannot be carried over.
inductive TranspileError where
  | config (error : Config.Error)
  | failure (failure : Failure)
  deriving Repr

-- The text of a program in a notation, under a configuration.
def render (config : Config) (target : Dialect) (module : Module) : String :=
  let text := (write target module).render (config.indent target)
  if config.prelude && target == .javaScript then preludeText ++ "\n" ++ text else text

-- Carries a program over to the other notation. The configuration is checked first.
def transpile (config : Config) (dialect : Dialect) (source : String) :
    Except TranspileError String :=
  match config.validate with
  | .error error => .error (.config error)
  | .ok () =>
      match parse dialect source with
      | .error failure => .error (.failure failure)
      | .ok module => .ok (render config dialect.target module)

-- Carries a program over and back, as often as given. Each text is the source of the next step; a
-- failure ends it.
def roundTrip (config : Config) : Nat → Dialect → String → List (Except TranspileError String)
  | 0, _, _ => []
  | steps + 1, dialect, source =>
      match transpile config dialect source with
      | .error error => [.error error]
      | .ok output => .ok output :: roundTrip config steps dialect.target output

end Diglot
