import Diglot.Indented.WriteExpr

namespace Diglot.Indented

-- The dotted name of a module that is named by a path: without `./` in front and an extension of
-- either notation behind, and with dots for slashes.
def dropHere : List Char → List Char
  | '.' :: '/' :: rest => dropHere rest
  | path => path

-- A text without the given end, if it has it.
def dropEnd? (ending : String) (text : List Char) : Option (List Char) :=
  if ending.toList.isSuffixOf text then some (text.take (text.length - ending.length)) else none

def moduleName (path : String) : String :=
  let path := dropHere path.toList
  let path := ((dropEnd? ".js" path).or (dropEnd? ".pjs" path)).getD path
  String.ofList (path.map fun c => if c = '/' then '.' else c)

def importedText (imported : ImportedName) : String :=
  match imported.otherName with
  | some otherName => imported.name ++ " as " ++ otherName
  | none => imported.name

-- An import. A module's own name is not repeated as its other name.
def writeImport (path : String) (kind : ImportKind) : String :=
  let module := moduleName path
  match kind with
  | .whole (some otherName) =>
      if otherName = module then "import " ++ module else "import " ++ module ++ " as " ++ otherName
  | .whole none => "import " ++ module
  | .names imported =>
      "from " ++ module ++ " import " ++ ", ".intercalate (imported.map importedText)

-- What a loop runs over. A range that has a step has a start.
def writeIteration : Iteration → Phrase
  | .range start stop step =>
      let first := match start, step with
        | some start, _ => [exprPhrase "" start ""]
        | none, some _ => [.plain "0"]
        | none, none => []
      let last := match step with
        | some step => [exprPhrase "" step ""]
        | none => []
      .listed "range(" (first ++ exprPhrase "" stop "" :: last) ")"
  | .each iterable => exprPhrase "" iterable ""

def writeParam (param : Parameter) : Phrase :=
  match param.kind with
  | .positional =>
      match param.default with
      | some default => exprPhrase (param.name ++ "=") default ""
      | none => .plain param.name
  | .rest => .plain ("*" ++ param.name)
  | .keywordCollector => .plain ("**" ++ param.name)

-- The head of a function. A method is given its receiver if it does not name it.
def functionHead (ctx : Context) (name : String) (params : List Parameter) : Phrase :=
  let receiver :=
    if ctx.inClass && (params.head?.map (·.name)) != some "self" then [.plain "self"] else []
  let name := if ctx.inClass && name = "constructor" then "__init__" else name
  .listed ("def " ++ name ++ "(") (receiver ++ params.map writeParam) "):"

-- Where the body of a function is written.
def functionContext (ctx : Context) : Context := if ctx.inClass then .methodBody else .toplevel

-- The value of an assignment.
def writeValue : Option Expr → Phrase
  | some value => exprPhrase "" value ""
  | none => .plain "None"

-- The line that opens the handler of an exception.
def handlerHead : Option String → String
  | some name => "except Exception as " ++ name ++ ":"
  | none => "except:"

-- An indented block. One without statements says so.
def writeBlock (body : List Stmt) (written : Fragment) : Fragment :=
  (if body.isEmpty then .line "pass" else written).indent

-- What a loop does at the end of each round, as lines that depend on where they are written.
abbrev Update := Context → Fragment

mutual

-- The lines of a statement. `update` is what the innermost loop around it does at the end of each
-- round, if it is a loop with three clauses; leaving a round early does it too.
def writeStmt (ctx : Context) (update : Option Update) : Stmt → Fragment
  | .imports path kind _ => .line (writeImport path kind)
  | .classDef name base body _ =>
      let bases := match base with
        | some base => "(" ++ base ++ ")"
        | none => ""
      .line ("class " ++ name ++ bases ++ ":") ++
        writeBlock body (writeStmts .classBody update body)
  | .functionDef name params body _ =>
      .phrase (functionHead ctx name params) ++
        writeBlock body (writeStmts (functionContext ctx) update body)
  | .ifElse condition body elifs orElse _ =>
      .phrase (exprPhrase "if " condition ":") ++ writeBlock body (writeStmts ctx update body) ++
        writeElifs ctx update elifs ++ writeOption ctx update "else:" orElse
  | .forIn target iteration body _ =>
      let written := writeIteration iteration
      .phrase ⟨"for " ++ target ++ " in " ++ written.text ++ ":", written.placeholders⟩ ++
        writeBlock body (writeStmts ctx none body)
  | .forClauses init test last body _ =>
      let inner : Option Update := match last with
        | some last => some fun ctx => writeStmt ctx none last
        | none => none
      let ending := match last with
        | some last => writeStmt ctx update last
        | none => if body.isEmpty then .line "pass" else .empty
      writeInit ctx update init ++
        .phrase (match test with
          | some test => exprPhrase "while " test ":"
          | none => .plain "while True:") ++
        (writeStmts ctx inner body ++ ending).indent
  | .whileDo condition body _ =>
      .phrase (exprPhrase "while " condition ":") ++ writeBlock body (writeStmts ctx none body)
  | .tryCatch body handler cleanup _ =>
      .line "try:" ++ writeBlock body (writeStmts ctx update body) ++
        writeHandler ctx update handler ++ writeOption ctx update "finally:" cleanup
  | .returns (some value) _ => .phrase (exprPhrase "return " value "")
  | .returns none _ => .line "return"
  | .assign targets value _ _ =>
      .phrase (.joined (targets.map (exprPhrase "" · " = ") ++ [writeValue value]))
  | .augAssign target op value _ =>
      .phrase ⟨writeExpr target ++ " " ++ binarySymbol op ++ "= " ++ writeExpr value,
        countExpr target + countExpr value⟩
  | .print args _ => .phrase (.listed "print(" (args.map (exprPhrase "" · "")) ")")
  | .expr value _ => .phrase (exprPhrase "" value "")
  | .pass _ => .line "pass"
  | .breaks _ => .line "break"
  | .continues _ =>
      (match update with
        | some update => update ctx
        | none => .empty) ++ .line "continue"

def writeStmts (ctx : Context) (update : Option Update) : List Stmt → Fragment
  | [] => .empty
  | first :: rest => writeStmt ctx update first ++ writeStmts ctx update rest

def writeInit (ctx : Context) (update : Option Update) : Option Stmt → Fragment
  | none => .empty
  | some init => writeStmt ctx update init

def writeElifs (ctx : Context) (update : Option Update) : List (ElifClause Stmt) → Fragment
  | [] => .empty
  | ⟨condition, body, _⟩ :: rest =>
      .phrase (exprPhrase "elif " condition ":") ++ writeBlock body (writeStmts ctx update body) ++
        writeElifs ctx update rest

-- A further block behind the given line, if there is one.
def writeOption (ctx : Context) (update : Option Update) (head : String) :
    Option (List Stmt) → Fragment
  | none => .empty
  | some body => .line head ++ writeBlock body (writeStmts ctx update body)

def writeHandler (ctx : Context) (update : Option Update) : Option (Handler Stmt) → Fragment
  | none => .empty
  | some ⟨name, body, _⟩ =>
      .line (handlerHead name) ++ writeBlock body (writeStmts ctx update body)

end

-- The lines of a whole program.
def writeModule (module : Module) : Fragment := writeStmts .toplevel none module.body

end Diglot.Indented
