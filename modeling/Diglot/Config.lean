import Diglot.Dialect
import Diglot.Json.Reader

namespace Diglot

-- How programs are written.
structure Config where
  -- Spaces per level in each notation.
  jsIndent : Nat
  pyIndent : Nat
  -- Whether the definitions that a program may need to run stand in front of it.
  prelude : Bool
  deriving DecidableEq, Repr

namespace Config

def default : Config := ⟨2, 4, false⟩

-- What is wrong with a configuration.
inductive Error where
  | indentOutOfRange (field : String) (value : Nat)
  | malformed
  deriving DecidableEq, Repr

def Error.message : Error → String
  | .indentOutOfRange field value =>
      field ++ " must be between 1 and 8, got " ++ toString value
  | .malformed => "malformed configuration"

-- The spaces per level of a notation.
def indent (config : Config) : Dialect → Nat
  | .javaScript => config.jsIndent
  | .pythonScript => config.pyIndent

def checkIndent (field : String) (value : Nat) : Except Error Unit :=
  if 1 ≤ value ∧ value ≤ 8 then .ok () else .error (.indentOutOfRange field value)

-- Levels are between one and eight spaces wide.
def validate (config : Config) : Except Error Unit := do
  checkIndent "js_indent" config.jsIndent
  checkIndent "py_indent" config.pyIndent

-- A number of at most 64 bits.
def width? : Json → Option Nat
  | .nat value => if value < 18446744073709551616 then some value else none
  | _ => none

def flag? : Json → Option Bool
  | .bool value => some value
  | _ => none

-- The value of a field that is given at most once, or another where it is not given.
def field {α : Type} (name : String) (decode : Json → Option α) (absent : α)
    (fields : List (String × Json)) : Option α :=
  match fields.filter (·.1 == name) with
  | [] => some absent
  | [(_, value)] => decode value
  | _ => none

-- The configuration that a value says: an object with any of the three fields, or an array of the
-- values of the first few. What is not given has its default.
def ofJson? : Json → Option Config
  | .obj fields => do
      return ⟨← field "js_indent" width? default.jsIndent fields,
        ← field "py_indent" width? default.pyIndent fields,
        ← field "prelude" flag? default.prelude fields⟩
  | .arr [] => some default
  | .arr [js] => do return ⟨← width? js, default.pyIndent, default.prelude⟩
  | .arr [js, py] => do return ⟨← width? js, ← width? py, default.prelude⟩
  | .arr [js, py, prelude] => do return ⟨← width? js, ← width? py, ← flag? prelude⟩
  | _ => none

-- The configuration that a text says. The values of other fields than the three are not looked into.
def ofText (text : String) : Except Error Config :=
  match (Json.parseOuter? text).bind ofJson? with
  | none => .error .malformed
  | some config => do
      config.validate
      return config

end Config

end Diglot
