import Diglot.CommandLine.Arguments

namespace Diglot

def versionText : String := "pythonscript 0.1.0\n"

-- How a command is called.
def Scope.usage : Scope → String
  | .top => "Usage: pythonscript [OPTIONS] <COMMAND>\n"
  | .build => "Usage: pythonscript build [OPTIONS] <INPUTS>...\n"
  | .tokenize => "Usage: pythonscript tokenize [OPTIONS] <FILE>\n"
  | .ast => "Usage: pythonscript ast [OPTIONS] <FILE>\n"
  | .lint => "Usage: pythonscript lint [OPTIONS] <FILE>\n"

-- What a command does.
def Scope.about : Scope → String
  | .top => "Transpile between PythonScript (.pjs) and JavaScript (.js)\n"
  | .build => "Transpile .pjs files to .js and .js files to .pjs\n"
  | .tokenize => "Print the token list as JSON\n"
  | .ast => "Print the AST as JSON\n"
  | .lint => "Check that a file lexes and parses\n"

-- What can stand behind a command.
def Scope.details : Scope → String
  | .top =>
      "Commands:\n" ++
      "  build     Transpile .pjs files to .js and .js files to .pjs\n" ++
      "  tokenize  Print the token list as JSON\n" ++
      "  ast       Print the AST as JSON\n" ++
      "  lint      Check that a file lexes and parses\n" ++
      "  help      Print this message or the help of the given subcommand(s)\n\n" ++
      "Options:\n" ++
      "  -v, --verbose  Log pipeline stages to stderr\n" ++
      "  -h, --help     Print help\n" ++
      "  -V, --version  Print version\n"
  | .build =>
      "Arguments:\n" ++
      "  <INPUTS>...  Source files\n\n" ++
      "Options:\n" ++
      "  -o, --output <OUTPUT>    Output file (single input only)\n" ++
      "  -v, --verbose            Log pipeline stages to stderr\n" ++
      "      --out-dir <OUT_DIR>  Directory for generated files\n" ++
      "      --prelude            Prepend the runtime prelude to JavaScript output\n" ++
      "      --config <CONFIG>    JSON configuration file\n" ++
      "  -h, --help               Print help\n"
  | _ =>
      "Arguments:\n" ++
      "  <FILE>  \n\n" ++
      "Options:\n" ++
      "  -v, --verbose  Log pipeline stages to stderr\n" ++
      "  -h, --help     Print help\n"

def Scope.help (scope : Scope) : String :=
  scope.about ++ "\n" ++ scope.usage ++ "\n" ++ scope.details

end Diglot
