import Diglot.Text.Quote

namespace Diglot

-- A JSON value. An object keeps its fields in order, repeated keys included.
inductive Json where
  | null
  | bool (value : Bool)
  -- A number that is written with digits alone.
  | nat (value : Nat)
  -- Any other number, as it is written.
  | number (literal : String)
  | str (value : String)
  | arr (items : List Json)
  | obj (fields : List (String × Json))
  deriving Repr, Inhabited

namespace Json

-- The value of a key. Of repeated keys the last one counts.
def lookup (key : String) : List (String × Json) → Option Json
  | [] => none
  | (name, value) :: rest =>
      match lookup key rest with
      | some found => some found
      | none => if name = key then some value else none

-- The value of a key in an object.
def get? (key : String) : Json → Option Json
  | obj fields => lookup key fields
  | _ => none

mutual

-- How deep arrays and objects are nested, a plain value counting one.
def depth : Json → Nat
  | arr items => itemsDepth items + 1
  | obj fields => fieldsDepth fields + 1
  | _ => 1

def itemsDepth : List Json → Nat
  | [] => 0
  | item :: rest => max item.depth (itemsDepth rest)

def fieldsDepth : List (String × Json) → Nat
  | [] => 0
  | (_, value) :: rest => max value.depth (fieldsDepth rest)

end

mutual

-- A value in one line, without blanks.
def compact : Json → String
  | null => "null"
  | bool value => if value then "true" else "false"
  | nat value => toString value
  | number literal => literal
  | str value => quote value
  | arr items => "[" ++ ",".intercalate (compactItems items) ++ "]"
  | obj fields => "\x7b" ++ ",".intercalate (compactFields fields) ++ "\x7d"

def compactItems : List Json → List String
  | [] => []
  | item :: rest => item.compact :: compactItems rest

def compactFields : List (String × Json) → List String
  | [] => []
  | (name, value) :: rest => (quote name ++ ":" ++ value.compact) :: compactFields rest

end

-- A list of written items between brackets, one a line, two columns further in. An empty list
-- stays in one line.
def bracketed (opening closing : String) (indent : String) (items : List String) : String :=
  if items.isEmpty then opening ++ closing
  else
    opening ++ "\n" ++ ",\n".intercalate (items.map fun item => indent ++ "  " ++ item) ++ "\n" ++
      indent ++ closing

mutual

-- A value over several lines, each level two columns further in. All lines but the first start
-- with `indent`.
def prettyAt (indent : String) : Json → String
  | null => "null"
  | bool value => if value then "true" else "false"
  | nat value => toString value
  | number literal => literal
  | str value => quote value
  | arr items => bracketed "[" "]" indent (prettyItems (indent ++ "  ") items)
  | obj fields => bracketed "\x7b" "\x7d" indent (prettyFields (indent ++ "  ") fields)

def prettyItems (indent : String) : List Json → List String
  | [] => []
  | item :: rest => prettyAt indent item :: prettyItems indent rest

def prettyFields (indent : String) : List (String × Json) → List String
  | [] => []
  | (name, value) :: rest =>
      (quote name ++ ": " ++ prettyAt indent value) :: prettyFields indent rest

end

-- A value over several lines.
def pretty (value : Json) : String := prettyAt "" value

end Json

end Diglot
