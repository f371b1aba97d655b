import Diglot.Json
import Diglot.Syntax.Names

namespace Diglot

namespace Json

-- The values of some fields, in the order of their names. An object may leave fields out, which
-- then are null, and may have others. An array gives the values of all fields in order.
def values (names : List String) : Json → Option (List Json)
  | obj fields => some (names.map fun name => (lookup name fields).getD null)
  | arr items => if items.length = names.length then some items else none
  | _ => none

-- The name of a kind. Where kinds are listed, a kind may also be told by its place in the list.
def kindName? (kinds : List String) : Json → Option String
  | str kind => some kind
  | nat index => kinds[index]?
  | _ => none

-- The name of the kind of a value and the value without it. An object has the kind under a key, an
-- array in front.
def kind? (tag : String) (kinds : List String) : Json → Option (String × Json)
  | obj fields => do return (← kindName? kinds (← lookup tag fields), obj fields)
  | arr (kind :: items) => do return (← kindName? kinds kind, arr items)
  | _ => none

-- A name that stands alone. It may also be the only key of an object, with null or an empty object
-- as its value.
def unit : Json → Option String
  | str name => some name
  | obj [(name, null)] | obj [(name, obj [])] => some name
  | _ => none

def text : Json → Option String
  | str value => some value
  | _ => none

def truth : Json → Option Bool
  | bool value => some value
  | _ => none

-- A number of at most 32 bits.
def word32 : Json → Option Nat
  | nat value => if value < 4294967296 then some value else none
  | _ => none

-- The items of an array, each decoded.
def list {α : Type} (decode : Json → Option α) : Json → Option (List α)
  | arr items => items.mapM decode
  | _ => none

-- A value that may be null.
def optional {α : Type} (decode : Json → Option α) : Json → Option (Option α)
  | null => some none
  | value => (decode value).map some

end Json

def Pos.ofJson? (json : Json) : Option Pos := do
  let [line, column] ← json.values ["line", "column"] | none
  return ⟨← line.word32, ← column.word32⟩

section Parts

-- The decoder of the expressions inside.
variable (expr : Json → Option Expr)

def Comparison.ofJson? (json : Json) : Option (Comparison Expr) := do
  let [op, right] ← json.values ["op", "right"] | none
  return ⟨← op.unit.bind CompareOp.ofName?, ← expr right⟩

def DictKey.ofJson? (json : Json) : Option (DictKey Expr) := do
  let (kind, fields) ← json.kind? "kind" ["literal", "number", "computed"]
  match kind with
  | "literal" => do
      let [value] ← fields.values ["value"] | none
      return .literal (← value.text)
  | "number" => do
      let [value] ← fields.values ["value"] | none
      return .number (← value.text)
  | "computed" => do
      let [key] ← fields.values ["expression"] | none
      return .computed (← expr key)
  | _ => none

def DictEntry.ofJson? (json : Json) : Option (DictEntry Expr) := do
  let [key, value] ← json.values ["key", "value"] | none
  return ⟨← DictKey.ofJson? expr key, ← expr value⟩

def Segment.ofJson? (json : Json) : Option (Segment Expr) := do
  let (kind, fields) ← json.kind? "type" ["text", "expr"]
  match kind with
  | "text" => do
      let [value] ← fields.values ["value"] | none
      return .text (← value.text)
  | "expr" => do
      let [value] ← fields.values ["expr"] | none
      return .expr (← expr value)
  | _ => none

-- Decodes one expression, given the decoder of those inside it.
def Expr.ofFields? (kind : String) (fields : Json) : Option Expr :=
  match kind with
  | "BinOp" => do
      let [op, left, right, pos] ← fields.values ["op", "left", "right", "location"] | none
      return .binary (← op.unit.bind BinaryOp.ofName?) (← expr left) (← expr right)
        (← Pos.ofJson? pos)
  | "UnaryOp" => do
      let [op, operand, pos] ← fields.values ["op", "operand", "location"] | none
      return .unary (← op.unit.bind UnaryOp.ofName?) (← expr operand) (← Pos.ofJson? pos)
  | "BoolOp" => do
      let [op, left, right, pos] ← fields.values ["op", "left", "right", "location"] | none
      return .logical (← op.unit.bind BoolOp.ofName?) (← expr left) (← expr right)
        (← Pos.ofJson? pos)
  | "CompareChain" => do
      let [left, comparisons, pos] ← fields.values ["left", "comparisons", "location"] | none
      return .compare (← expr left) (← comparisons.list (Comparison.ofJson? expr))
        (← Pos.ofJson? pos)
  | "Conditional" => do
      let [test, consequent, alternate, pos] ←
        fields.values ["test", "consequent", "alternate", "location"] | none
      return .conditional (← expr test) (← expr consequent) (← expr alternate) (← Pos.ofJson? pos)
  | "Membership" => do
      let [element, container, negated, pos] ←
        fields.values ["element", "container", "negated", "location"] | none
      return .membership (← expr element) (← expr container) (← negated.truth) (← Pos.ofJson? pos)
  | "Index" => do
      let [object, place, pos] ← fields.values ["object", "index", "location"] | none
      return .index (← expr object) (← expr place) (← Pos.ofJson? pos)
  | "Slice" => do
      let [object, start, stop, step, pos] ←
        fields.values ["object", "start", "stop", "step", "location"] | none
      return .slice (← expr object) (← start.optional expr) (← stop.optional expr)
        (← step.optional expr) (← Pos.ofJson? pos)
  | "Attribute" => do
      let [object, name, pos] ← fields.values ["object", "name", "location"] | none
      return .member (← expr object) (← name.text) (← Pos.ofJson? pos)
  | "Call" => do
      let [callee, args, pos] ← fields.values ["callee", "args", "location"] | none
      return .call (← expr callee) (← args.list expr) (← Pos.ofJson? pos)
  | "New" => do
      let [callee, args, pos] ← fields.values ["callee", "args", "location"] | none
      return .construct (← expr callee) (← args.list expr) (← Pos.ofJson? pos)
  | "List" => do
      let [elements, pos] ← fields.values ["elements", "location"] | none
      return .list (← elements.list expr) (← Pos.ofJson? pos)
  | "Dict" => do
      let [entries, pos] ← fields.values ["entries", "location"] | none
      return .dict (← entries.list (DictEntry.ofJson? expr)) (← Pos.ofJson? pos)
  | "InterpolatedString" => do
      let [segments, pos] ← fields.values ["segments", "location"] | none
      return .interpolated (← segments.list (Segment.ofJson? expr)) (← Pos.ofJson? pos)
  | "TemplateLiteral" => do
      let [raw, pos] ← fields.values ["raw", "location"] | none
      return .template (← raw.text) (← Pos.ofJson? pos)
  | "Number" => do
      let [value, pos] ← fields.values ["value", "location"] | none
      return .number (← value.text) (← Pos.ofJson? pos)
  | "String" => do
      let [value, pos] ← fields.values ["value", "location"] | none
      return .string (← value.text) (← Pos.ofJson? pos)
  | "Boolean" => do
      let [value, pos] ← fields.values ["value", "location"] | none
      return .boolean (← value.truth) (← Pos.ofJson? pos)
  | "Null" => do
      let [pos] ← fields.values ["location"] | none
      return .null (← Pos.ofJson? pos)
  | "Variable" => do
      let [name, pos] ← fields.values ["name", "location"] | none
      return .var (← name.text) (← Pos.ofJson? pos)
  | "This" => do
      let [pos] ← fields.values ["location"] | none
      return .this (← Pos.ofJson? pos)
  | "Super" => do
      let [pos] ← fields.values ["location"] | none
      return .super (← Pos.ofJson? pos)
  | _ => none

end Parts

def Expr.kinds : List String :=
  ["BinOp", "UnaryOp", "BoolOp", "CompareChain", "Conditional", "Membership", "Index", "Slice",
    "Attribute", "Call", "New", "List", "Dict", "InterpolatedString", "TemplateLiteral", "Number",
    "String", "Boolean", "Null", "Variable", "This", "Super"]

-- The expression that a value of at most the given depth says.
def Expr.decode : Nat → Json → Option Expr
  | 0, _ => none
  | depth + 1, json => do
      let (kind, fields) ← json.kind? "type" Expr.kinds
      Expr.ofFields? (Expr.decode depth) kind fields

def Expr.ofJson? (json : Json) : Option Expr := Expr.decode json.depth json

def ImportedName.ofJson? (json : Json) : Option ImportedName := do
  let [name, otherName] ← json.values ["name", "alias"] | none
  return ⟨← name.text, ← otherName.optional Json.text⟩

def ImportKind.ofJson? (json : Json) : Option ImportKind := do
  let (kind, fields) ← json.kind? "kind" ["module", "names"]
  match kind with
  | "module" => do
      let [otherName] ← fields.values ["alias"] | none
      return .whole (← otherName.optional Json.text)
  | "names" => do
      let [imported] ← fields.values ["names"] | none
      return .names (← imported.list ImportedName.ofJson?)
  | _ => none

def Parameter.ofJson? (json : Json) : Option Parameter := do
  let [name, kind, default, pos] ← json.values ["name", "kind", "default", "location"] | none
  return ⟨← name.text, ← kind.unit.bind ParameterKind.ofName?, ← default.optional Expr.ofJson?,
    ← Pos.ofJson? pos⟩

def Iteration.ofJson? (json : Json) : Option Iteration := do
  let (kind, fields) ← json.kind? "kind" ["range", "each"]
  match kind with
  | "range" => do
      let [start, stop, step] ← fields.values ["start", "stop", "step"] | none
      return .range (← start.optional Expr.ofJson?) (← Expr.ofJson? stop)
        (← step.optional Expr.ofJson?)
  | "each" => do
      let [iterable] ← fields.values ["iterable"] | none
      return .each (← Expr.ofJson? iterable)
  | _ => none

section Parts

-- The decoder of the statements inside.
variable (stmt : Json → Option Stmt)

def ElifClause.ofJson? (json : Json) : Option (ElifClause Stmt) := do
  let [condition, body, pos] ← json.values ["condition", "body", "location"] | none
  return ⟨← Expr.ofJson? condition, ← body.list stmt, ← Pos.ofJson? pos⟩

def Handler.ofJson? (json : Json) : Option (Handler Stmt) := do
  let [name, body, pos] ← json.values ["name", "body", "location"] | none
  return ⟨← name.optional Json.text, ← body.list stmt, ← Pos.ofJson? pos⟩

-- Decodes one statement, given the decoder of those inside it.
def Stmt.ofFields? (kind : String) (fields : Json) : Option Stmt :=
  match kind with
  | "Import" => do
      let [module, kind, pos] ← fields.values ["module", "kind", "location"] | none
      return .imports (← module.text) (← ImportKind.ofJson? kind) (← Pos.ofJson? pos)
  | "ClassDef" => do
      let [name, base, body, pos] ← fields.values ["name", "base", "body", "location"] | none
      return .classDef (← name.text) (← base.optional Json.text) (← body.list stmt)
        (← Pos.ofJson? pos)
  | "FunctionDef" => do
      let [name, params, body, pos] ← fields.values ["name", "params", "body", "location"] | none
      return .functionDef (← name.text) (← params.list Parameter.ofJson?) (← body.list stmt)
        (← Pos.ofJson? pos)
  | "If" => do
      let [condition, body, elifs, orElse, pos] ←
        fields.values ["condition", "body", "elif_clauses", "else_body", "location"] | none
      return .ifElse (← Expr.ofJson? condition) (← body.list stmt)
        (← elifs.list (ElifClause.ofJson? stmt)) (← orElse.optional (·.list stmt))
        (← Pos.ofJson? pos)
  | "For" => do
      let [target, iteration, body, pos] ←
        fields.values ["target", "iter", "body", "location"] | none
      return .forIn (← target.text) (← Iteration.ofJson? iteration) (← body.list stmt)
        (← Pos.ofJson? pos)
  | "ForClassic" => do
      let [init, test, update, body, pos] ←
        fields.values ["init", "test", "update", "body", "location"] | none
      return .forClauses (← init.optional stmt) (← test.optional Expr.ofJson?)
        (← update.optional stmt) (← body.list stmt) (← Pos.ofJson? pos)
  | "While" => do
      let [condition, body, pos] ← fields.values ["condition", "body", "location"] | none
      return .whileDo (← Expr.ofJson? condition) (← body.list stmt) (← Pos.ofJson? pos)
  | "Try" => do
      let [body, handler, cleanup, pos] ←
        fields.values ["body", "handler", "finally_body", "location"] | none
      return .tryCatch (← body.list stmt) (← handler.optional (Handler.ofJson? stmt))
        (← cleanup.optional (·.list stmt)) (← Pos.ofJson? pos)
  | "Return" => do
      let [value, pos] ← fields.values ["value", "location"] | none
      return .returns (← value.optional Expr.ofJson?) (← Pos.ofJson? pos)
  | "Assign" => do
      let [targets, value, declaration, pos] ←
        fields.values ["targets", "value", "declaration", "location"] | none
      return .assign (← targets.list Expr.ofJson?) (← value.optional Expr.ofJson?)
        (← declaration.optional (·.unit.bind Declaration.ofName?)) (← Pos.ofJson? pos)
  | "AugAssign" => do
      let [target, op, value, pos] ← fields.values ["target", "op", "value", "location"] | none
      return .augAssign (← Expr.ofJson? target) (← op.unit.bind BinaryOp.ofName?)
        (← Expr.ofJson? value) (← Pos.ofJson? pos)
  | "Print" => do
      let [args, pos] ← fields.values ["args", "location"] | none
      return .print (← args.list Expr.ofJson?) (← Pos.ofJson? pos)
  | "Expression" => do
      let [value, pos] ← fields.values ["expression", "location"] | none
      return .expr (← Expr.ofJson? value) (← Pos.ofJson? pos)
  | "Pass" => do
      let [pos] ← fields.values ["location"] | none
      return .pass (← Pos.ofJson? pos)
  | "Break" => do
      let [pos] ← fields.values ["location"] | none
      return .breaks (← Pos.ofJson? pos)
  | "Continue" => do
      let [pos] ← fields.values ["location"] | none
      return .continues (← Pos.ofJson? pos)
  | _ => none

end Parts

def Stmt.kinds : List String :=
  ["Import", "ClassDef", "FunctionDef", "If", "For", "ForClassic", "While", "Try", "Return", "Assign",
    "AugAssign", "Print", "Expression", "Pass", "Break", "Continue"]

-- The statement inside another that a value of at most the given depth says.
def Stmt.decode : Nat → Json → Option Stmt
  | 0, _ => none
  | depth + 1, json => do
      let (kind, fields) ← json.kind? "type" Stmt.kinds
      Stmt.ofFields? (Stmt.decode depth) kind fields

-- The statement that a value says. Only what it contains may have kinds told by their places.
def Stmt.ofJson? (json : Json) : Option Stmt := do
  let (kind, fields) ← json.kind? "type" []
  Stmt.ofFields? (Stmt.decode json.depth) kind fields

-- The program that a value says.
def Module.ofJson? (json : Json) : Option Module := do
  let [body, pos] ← json.values ["body", "location"] | none
  return ⟨← body.list Stmt.ofJson?, ← Pos.ofJson? pos⟩

end Diglot
