import Diglot.Json
import Diglot.Syntax.Names

namespace Diglot

def Pos.toJson (pos : Pos) : Json := .obj [("line", .nat pos.line), ("column", .nat pos.column)]

-- A text, or null where there is none.
def Json.ofText? (text : Option String) : Json :=
  match text with
  | none => .null
  | some text => .str text

-- An object with the name of its kind in front and its place behind.
def Json.node (kind : String) (fields : List (String × Json)) (pos : Pos) : Json :=
  .obj (("type", .str kind) :: (fields ++ [("location", pos.toJson)]))

-- An object with the name of its kind in front, under the given key.
def Json.tagged (tag kind : String) (fields : List (String × Json)) : Json :=
  .obj ((tag, .str kind) :: fields)

mutual

-- The serialized form of an expression.
def Expr.toJson : Expr → Json
  | .binary op left right pos =>
      .node "BinOp" [("op", .str op.name), ("left", left.toJson), ("right", right.toJson)] pos
  | .unary op operand pos =>
      .node "UnaryOp" [("op", .str op.name), ("operand", operand.toJson)] pos
  | .logical op left right pos =>
      .node "BoolOp" [("op", .str op.name), ("left", left.toJson), ("right", right.toJson)] pos
  | .compare left comparisons pos =>
      .node "CompareChain"
        [("left", left.toJson), ("comparisons", .arr (comparisonsToJson comparisons))] pos
  | .conditional test consequent alternate pos =>
      .node "Conditional"
        [("test", test.toJson), ("consequent", consequent.toJson),
          ("alternate", alternate.toJson)] pos
  | .membership element container negated pos =>
      .node "Membership"
        [("element", element.toJson), ("container", container.toJson),
          ("negated", .bool negated)] pos
  | .index object index pos =>
      .node "Index" [("object", object.toJson), ("index", index.toJson)] pos
  | .slice object start stop step pos =>
      .node "Slice"
        [("object", object.toJson), ("start", exprToJson? start), ("stop", exprToJson? stop),
          ("step", exprToJson? step)] pos
  | .member object name pos =>
      .node "Attribute" [("object", object.toJson), ("name", .str name)] pos
  | .call callee args pos =>
      .node "Call" [("callee", callee.toJson), ("args", .arr (exprsToJson args))] pos
  | .construct callee args pos =>
      .node "New" [("callee", callee.toJson), ("args", .arr (exprsToJson args))] pos
  | .list elements pos => .node "List" [("elements", .arr (exprsToJson elements))] pos
  | .dict entries pos => .node "Dict" [("entries", .arr (entriesToJson entries))] pos
  | .interpolated segments pos =>
      .node "InterpolatedString" [("segments", .arr (segmentsToJson segments))] pos
  | .template raw pos => .node "TemplateLiteral" [("raw", .str raw)] pos
  | .number literal pos => .node "Number" [("value", .str literal)] pos
  | .string value pos => .node "String" [("value", .str value)] pos
  | .boolean value pos => .node "Boolean" [("value", .bool value)] pos
  | .null pos => .node "Null" [] pos
  | .var name pos => .node "Variable" [("name", .str name)] pos
  | .this pos => .node "This" [] pos
  | .super pos => .node "Super" [] pos

def exprsToJson : List Expr → List Json
  | [] => []
  | first :: rest => first.toJson :: exprsToJson rest

def exprToJson? : Option Expr → Json
  | none => .null
  | some value => value.toJson

def comparisonsToJson : List (Comparison Expr) → List Json
  | [] => []
  | ⟨op, right⟩ :: rest =>
      .obj [("op", .str op.name), ("right", right.toJson)] :: comparisonsToJson rest

def dictKeyToJson : DictKey Expr → Json
  | .literal text => .tagged "kind" "literal" [("value", .str text)]
  | .number text => .tagged "kind" "number" [("value", .str text)]
  | .computed key => .tagged "kind" "computed" [("expression", key.toJson)]

def entriesToJson : List (DictEntry Expr) → List Json
  | [] => []
  | ⟨key, value⟩ :: rest =>
      .obj [("key", dictKeyToJson key), ("value", value.toJson)] :: entriesToJson rest

def segmentsToJson : List (Segment Expr) → List Json
  | [] => []
  | .text value :: rest => .tagged "type" "text" [("value", .str value)] :: segmentsToJson rest
  | .expr value :: rest => .tagged "type" "expr" [("expr", value.toJson)] :: segmentsToJson rest

end

def ImportedName.toJson (imported : ImportedName) : Json :=
  .obj [("name", .str imported.name), ("alias", .ofText? imported.otherName)]

def ImportKind.toJson : ImportKind → Json
  | .whole otherName => .tagged "kind" "module" [("alias", .ofText? otherName)]
  | .names imported => .tagged "kind" "names" [("names", .arr (imported.map ImportedName.toJson))]

def Parameter.toJson (param : Parameter) : Json :=
  .obj [("name", .str param.name), ("kind", .str param.kind.name),
    ("default", exprToJson? param.default), ("location", param.pos.toJson)]

def Iteration.toJson : Iteration → Json
  | .range start stop step =>
      .tagged "kind" "range"
        [("start", exprToJson? start), ("stop", stop.toJson), ("step", exprToJson? step)]
  | .each iterable => .tagged "kind" "each" [("iterable", iterable.toJson)]

mutual

-- The serialized form of a statement.
def Stmt.toJson : Stmt → Json
  | .imports module kind pos =>
      .node "Import" [("module", .str module), ("kind", kind.toJson)] pos
  | .classDef name base body pos =>
      .node "ClassDef"
        [("name", .str name), ("base", .ofText? base), ("body", .arr (stmtsToJson body))] pos
  | .functionDef name params body pos =>
      .node "FunctionDef"
        [("name", .str name), ("params", .arr (params.map Parameter.toJson)),
          ("body", .arr (stmtsToJson body))] pos
  | .ifElse condition body elifs orElse pos =>
      .node "If"
        [("condition", condition.toJson), ("body", .arr (stmtsToJson body)),
          ("elif_clauses", .arr (elifsToJson elifs)), ("else_body", blockToJson? orElse)] pos
  | .forIn target iteration body pos =>
      .node "For"
        [("target", .str target), ("iter", iteration.toJson), ("body", .arr (stmtsToJson body))] pos
  | .forClauses init test update body pos =>
      .node "ForClassic"
        [("init", stmtToJson? init), ("test", exprToJson? test), ("update", stmtToJson? update),
          ("body", .arr (stmtsToJson body))] pos
  | .whileDo condition body pos =>
      .node "While" [("condition", condition.toJson), ("body", .arr (stmtsToJson body))] pos
  | .tryCatch body handler cleanup pos =>
      .node "Try"
        [("body", .arr (stmtsToJson body)), ("handler", handlerToJson? handler),
          ("finally_body", blockToJson? cleanup)] pos
  | .returns value pos => .node "Return" [("value", exprToJson? value)] pos
  | .assign targets value declaration pos =>
      .node "Assign"
        [("targets", .arr (exprsToJson targets)), ("value", exprToJson? value),
          ("declaration", .ofText? (declaration.map Declaration.name))] pos
  | .augAssign target op value pos =>
      .node "AugAssign"
        [("target", target.toJson), ("op", .str op.name), ("value", value.toJson)] pos
  | .print args pos => .node "Print" [("args", .arr (exprsToJson args))] pos
  | .expr value pos => .node "Expression" [("expression", value.toJson)] pos
  | .pass pos => .node "Pass" [] pos
  | .breaks pos => .node "Break" [] pos
  | .continues pos => .node "Continue" [] pos

def stmtsToJson : List Stmt → List Json
  | [] => []
  | first :: rest => first.toJson :: stmtsToJson rest

def stmtToJson? : Option Stmt → Json
  | none => .null
  | some found => found.toJson

def blockToJson? : Option (List Stmt) → Json
  | none => .null
  | some body => .arr (stmtsToJson body)

def elifsToJson : List (ElifClause Stmt) → List Json
  | [] => []
  | ⟨condition, body, pos⟩ :: rest =>
      .obj [("condition", condition.toJson), ("body", .arr (stmtsToJson body)),
        ("location", pos.toJson)] :: elifsToJson rest

def handlerToJson? : Option (Handler Stmt) → Json
  | none => .null
  | some ⟨name, body, pos⟩ =>
      .obj [("name", .ofText? name), ("body", .arr (stmtsToJson body)), ("location", pos.toJson)]

end

-- The serialized form of a program.
def Module.toJson (module : Module) : Json :=
  .obj [("body", .arr (stmtsToJson module.body)), ("location", module.pos.toJson)]

end Diglot
