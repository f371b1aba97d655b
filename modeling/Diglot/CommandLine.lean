import Diglot.CommandLine.Help
import Diglot.FileTree
import Diglot.Syntax.ToJson
import Diglot.Transpile

namespace Diglot

-- Why a command, or its work on one input, fails.
inductive CommandError where
  | unknownDialect (path : String)
  | unreadable (path : String) (reason : FileError)
  | unwritable (path : String) (reason : FileError)
  | unmade (directory : String) (reason : FileError)
  | unnamed (path : String)
  | unreadableConfig (path : String) (reason : FileError)
  | badConfig (path : String) (reason : Config.Error)
  | severalInputs
  | transpile (path : String) (reason : TranspileError)
  | lint (path : String) (reason : Failure)
  | someFailed (failed total : Nat)
  deriving Repr

namespace CommandError

def transpileText (path : String) : TranspileError → String
  | .config error => error.message
  | .failure failure => failure.message path

def text : CommandError → String
  | .unknownDialect path => Diglot.unknownDialect path
  | .unreadable path _ => "failed to read " ++ path
  | .unwritable path _ => "failed to write " ++ path
  | .unmade directory _ => "failed to create output directory " ++ directory
  | .unnamed path => "invalid input path " ++ path
  | .unreadableConfig path reason => "failed to access " ++ path ++ ": " ++ reason.message
  | .badConfig path .malformed =>
      "invalid configuration in " ++ path ++ ": " ++ Config.Error.malformed.message
  | .badConfig _ reason => reason.message
  | .severalInputs => "--output can only be used with a single input"
  | .transpile path reason => transpileText path reason
  | .lint path reason => "Lint failed: " ++ reason.message path
  | .someFailed failed total =>
      toString failed ++ " of " ++ toString total ++ " files failed to build"

def cause? : CommandError → Option FileError
  | .unreadable _ reason | .unwritable _ reason | .unmade _ reason
  | .unreadableConfig _ reason => some reason
  | _ => none

-- An error that ends the command.
def report (error : CommandError) : String :=
  match error.cause? with
  | none => "Error: " ++ error.text ++ "\n"
  | some cause => "Error: " ++ error.text ++ "\n\nCaused by:\n    " ++ cause.message ++ "\n"

-- An error of one input among several.
def reportInput (error : CommandError) : String :=
  match error.cause? with
  | none => "error: " ++ error.text ++ "\n"
  | some cause => "error: " ++ error.text ++ ": " ++ cause.message ++ "\n"

end CommandError

-- What a command leaves besides files.
structure Outcome where
  exit : Nat
  stdout : String
  stderr : String
  deriving DecidableEq, Repr

namespace Outcome

def success (stdout : String) : Outcome := ⟨0, stdout, ""⟩

def failure (error : CommandError) : Outcome := ⟨1, "", error.report⟩

def ofExcept : Except CommandError String → Outcome
  | .ok stdout => success stdout
  | .error error => failure error

def ofStop : Stop → Outcome
  | .help scope => success scope.help
  | .version => success versionText
  | .misuse => ⟨2, "", Scope.top.usage⟩

end Outcome

namespace CommandLine

variable {m : Type → Type} [Monad m]

-- A file operation, with its failure told as a failure of the command.
def attempt {α : Type} (wrap : FileError → CommandError) (action : m (Except FileError α)) :
    ExceptT CommandError m α :=
  ExceptT.mk do
    match ← action with
    | .ok result => return .ok result
    | .error reason => return .error (wrap reason)

-- The notation and the text of a source file. A file without a notation is not read.
def readSource (fs : FileSystem m) (path : String) : ExceptT CommandError m (Dialect × String) := do
  match Dialect.ofPath? path with
  | none => throw (.unknownDialect path)
  | some dialect =>
      let source ← attempt (.unreadable path) (fs.read path)
      return (dialect, source)

-- Where the program of an input is written.
def targetPath (options : BuildOptions) (dialect : Dialect) (input : String) :
    Except CommandError String :=
  match options.output, options.outDir with
  | some path, _ => .ok path
  | none, none => .ok (dialect.outputPath input)
  | none, some directory =>
      match Path.fileName? (dialect.outputPath input) with
      | some name => .ok (Path.join directory name)
      | none => .error (.unnamed input)

-- Carries one input over and writes the program. The answer is where it is written.
def buildInput (fs : FileSystem m) (options : BuildOptions) (config : Config) (input : String) :
    ExceptT CommandError m String := do
  let (dialect, source) ← readSource fs input
  match Diglot.transpile config dialect source, targetPath options dialect input with
  | .error reason, _ => throw (.transpile input reason)
  | .ok _, .error error => throw error
  | .ok code, .ok target =>
      attempt (.unwritable target) (fs.write target code)
      return target

-- Carries the inputs over one after the other. A failure of one does not keep the others.
def buildInputs (fs : FileSystem m) (options : BuildOptions) (config : Config) :
    List String → m (List (String × Except CommandError String))
  | [] => return []
  | input :: rest => do
      let result ← (buildInput fs options config input).run
      return (input, result) :: (← buildInputs fs options config rest)

-- The configuration that a `build` works under.
def loadConfig (fs : FileSystem m) (options : BuildOptions) : ExceptT CommandError m Config := do
  match options.config with
  | none => return { Config.default with prelude := options.prelude }
  | some path =>
      let text ← attempt (.unreadableConfig path) (fs.read path)
      match Config.ofText text with
      | .error reason => throw (.badConfig path reason)
      | .ok config => return { config with prelude := config.prelude || options.prelude }

-- The inputs that could not be carried over.
def failures (results : List (String × Except CommandError String)) : List CommandError :=
  results.filterMap fun (_, result) =>
    match result with
    | .ok _ => none
    | .error error => some error

-- What is told about the inputs: where each program is written, and why one is not.
def summary (results : List (String × Except CommandError String)) : Outcome :=
  let written := results.filterMap fun (input, result) =>
    match result with
    | .ok target => some (input ++ " -> " ++ target ++ "\n")
    | .error _ => none
  let failed := failures results
  let told := String.join (failed.map CommandError.reportInput)
  if failed = [] then .success (String.join written)
  else
    ⟨1, String.join written,
      told ++ (CommandError.someFailed failed.length results.length).report⟩

-- The work in front of the inputs: the configuration is loaded first, and nothing is made before
-- the options are found to fit.
def prepare (fs : FileSystem m) (options : BuildOptions) : ExceptT CommandError m Config := do
  let config ← loadConfig fs options
  if options.output.isSome ∧ 1 < options.inputs.length then throw .severalInputs
  match options.outDir with
  | none => return config
  | some directory =>
      attempt (.unmade directory) (fs.makeDirs directory)
      return config

def build (fs : FileSystem m) (options : BuildOptions) : m Outcome := do
  match ← (prepare fs options).run with
  | .error error => return .failure error
  | .ok config => return summary (← buildInputs fs options config options.inputs)

-- A token as an object.
def tokenJson (token : Token) : Json :=
  .obj [("kind", .str token.kind.name), ("lexeme", .str token.lexeme),
    ("line", .nat token.pos.line), ("column", .nat token.pos.column)]

def showTokens (dialect : Dialect) (path source : String) : Except CommandError String :=
  match Diglot.tokenize dialect source with
  | .ok tokens => .ok ((Json.arr (tokens.map tokenJson)).pretty ++ "\n")
  | .error reason => .error (.transpile path (.failure reason))

def showModule (dialect : Dialect) (path source : String) : Except CommandError String :=
  match Diglot.parse dialect source with
  | .ok module => .ok (module.toJson.pretty ++ "\n")
  | .error reason => .error (.transpile path (.failure reason))

def lint (dialect : Dialect) (path source : String) : Except CommandError String :=
  match Diglot.parse dialect source with
  | .ok _ => .ok "Lint OK\n"
  | .error reason => .error (.lint path reason)

-- What is told about one source file.
def inspect (fs : FileSystem m) (tell : Dialect → String → String → Except CommandError String)
    (path : String) : m Outcome := do
  match ← (readSource fs path).run with
  | .error error => return .failure error
  | .ok (dialect, source) => return .ofExcept (tell dialect path source)

def execute (fs : FileSystem m) : Command → m Outcome
  | .build options => build fs options
  | .tokenize path => inspect fs showTokens path
  | .ast path => inspect fs showModule path
  | .lint path => inspect fs lint path

-- Does what some arguments ask for.
def run (fs : FileSystem m) (args : List String) : m Outcome :=
  match Arguments.command args with
  | .ok command => execute fs command
  | .error stop => return .ofStop stop

end CommandLine

-- Does what some arguments ask for, on files in memory.
def runInTree (args : List String) (tree : FileTree) : Outcome × FileTree :=
  (CommandLine.run FileTree.system args).run tree

end Diglot
