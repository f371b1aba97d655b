namespace Diglot

-- What the arguments of a `build` say.
structure BuildOptions where
  inputs : List String
  output : Option String
  outDir : Option String
  prelude : Bool
  config : Option String
  deriving DecidableEq, Repr

-- What a command line asks for.
inductive Command where
  | build (options : BuildOptions)
  | tokenize (file : String)
  | ast (file : String)
  | lint (file : String)
  deriving DecidableEq, Repr

-- The places where a switch can stand: in front of the command, or behind one.
inductive Scope where
  | top
  | build
  | tokenize
  | ast
  | lint
  deriving DecidableEq, Repr

-- Why a command line asks for no command.
inductive Stop where
  | help (scope : Scope)
  | version
  | misuse
  deriving DecidableEq, Repr

inductive Switch where
  | verbose
  | help
  | version
  | prelude
  | output
  | outDir
  | config
  deriving DecidableEq, Repr

namespace Switch

-- Whether a value belongs to a switch.
def takesValue : Switch → Bool
  | .output | .outDir | .config => true
  | _ => false

def isKnownIn (scope : Scope) : Switch → Bool
  | .verbose | .help => true
  | .version => scope == .top
  | _ => scope == .build

def ofLong? (scope : Scope) (name : List Char) : Option Switch :=
  let found :=
    match String.ofList name with
    | "verbose" => some verbose
    | "help" => some help
    | "version" => some version
    | "prelude" => some prelude
    | "output" => some output
    | "out-dir" => some outDir
    | "config" => some config
    | _ => none
  found.filter (·.isKnownIn scope)

def ofShort? (scope : Scope) (letter : Char) : Option Switch :=
  let found :=
    match letter with
    | 'v' => some verbose
    | 'h' => some help
    | 'V' => some version
    | 'o' => some output
    | _ => none
  found.filter (·.isKnownIn scope)

end Switch

-- What has been read of the arguments so far.
structure Given where
  switches : List Switch
  values : List (Switch × String)
  words : List String

namespace Given

def none : Given := ⟨[], [], []⟩

-- A switch without a value. It may stand only once; a question for help or for the version is
-- answered at once.
def switch (scope : Scope) (given : Given) (switch : Switch) : Except Stop Given :=
  match switch with
  | .help => .error (.help scope)
  | .version => .error .version
  | _ =>
      if given.switches.contains switch then .error .misuse
      else .ok { given with switches := switch :: given.switches }

-- A switch with its value, which must not be empty. It may stand only once.
def value (given : Given) (switch : Switch) (text : List Char) : Except Stop Given :=
  if text = [] ∨ (given.values.any (·.1 == switch)) then .error .misuse
  else .ok { given with values := (switch, String.ofList text) :: given.values }

-- An argument that is no switch. All commands but `build` have room for one.
def word (scope : Scope) (given : Given) (text : String) : Except Stop Given :=
  if text = "" ∨ (scope ≠ .build ∧ given.words ≠ []) then .error .misuse
  else .ok { given with words := given.words ++ [text] }

def value? (given : Given) (switch : Switch) : Option String :=
  (given.values.find? (·.1 == switch)).map (·.2)

-- The command of a scope with what has been given to it.
def command (given : Given) (scope : Scope) : Except Stop Command :=
  match scope, given.words with
  | .build, input :: more =>
      .ok (.build ⟨input :: more, given.value? .output, given.value? .outDir,
        given.switches.contains .prelude, given.value? .config⟩)
  | .tokenize, [file] => .ok (.tokenize file)
  | .ast, [file] => .ok (.ast file)
  | .lint, [file] => .ok (.lint file)
  | _, _ => .error .misuse

end Given

namespace Arguments

-- Reads the switches that one letter each stands for. The rest behind a switch that takes a value
-- is that value; where nothing is left, the switch still waits for it.
def readShort (scope : Scope) : Given → List Char → Except Stop (Given × Option Switch)
  | given, [] => .ok (given, none)
  | given, letter :: rest =>
      match Switch.ofShort? scope letter with
      | none => .error .misuse
      | some switch =>
          if switch.takesValue then
            match rest with
            | [] => .ok (given, some switch)
            | '=' :: text => do return (← given.value switch text, none)
            | text => do return (← given.value switch text, none)
          else do readShort scope (← given.switch scope switch) rest

-- Reads the switch that a name stands for, with the value behind an equals sign.
def readLong (scope : Scope) (given : Given) (text : List Char) :
    Except Stop (Given × Option Switch) :=
  match Switch.ofLong? scope (text.takeWhile (· != '=')) with
  | none => .error .misuse
  | some switch =>
      match text.dropWhile (· != '='), switch.takesValue with
      | _ :: value, true => do return (← given.value switch value, none)
      | _ :: _, false => .error .misuse
      | [], true => .ok (given, some switch)
      | [], false => do return (← given.switch scope switch, none)

-- An argument by its look: two dashes and a name, a dash and letters, or a word. Two dashes alone
-- end the switches.
inductive Look where
  | ending
  | long (text : List Char)
  | short (letters : List Char)
  | word

def look (arg : String) : Look :=
  match arg.toList with
  | ['-', '-'] => .ending
  | '-' :: '-' :: text => .long text
  | ['-'] => .word
  | '-' :: letters => .short letters
  | _ => .word

-- Reads the arguments behind a command. A switch that waits for its value takes the next argument,
-- if that is a word.
def readCommand (scope : Scope) : Given → List String → Except Stop Given
  | given, [] => .ok given
  | given, arg :: rest => do
      let (given, waiting) ←
        match look arg with
        | .ending => return ← rest.foldlM (·.word scope) given
        | .long text => readLong scope given text
        | .short letters => readShort scope given letters
        | .word => do
            let given ← given.word scope arg
            pure (given, none)
      match waiting, rest with
      | none, rest => readCommand scope given rest
      | some _, [] => .error .misuse
      | some switch, text :: rest =>
          match look text with
          | .word => readCommand scope (← given.value switch text.toList) rest
          | _ => .error .misuse

def scope? : String → Option Scope
  | "build" => some .build
  | "tokenize" => some .tokenize
  | "ast" => some .ast
  | "lint" => some .lint
  | _ => none

-- The help that is asked for by name.
def readTopic : List String → Stop
  | [] => .help .top
  | ["help"] => .help .top
  | [name] =>
      match scope? name with
      | some scope => .help scope
      | none => .misuse
  | _ => .misuse

-- Reads the arguments up to the command and those behind it.
def readTop : Given → List String → Except Stop Command
  | _, [] => .error .misuse
  | given, arg :: rest =>
      match look arg with
      | .ending => .error .misuse
      | .long text => do readTop (← readLong .top given text).1 rest
      | .short letters => do readTop (← readShort .top given letters).1 rest
      | .word =>
          if arg = "help" then .error (readTopic rest)
          else
            match scope? arg with
            | none => .error .misuse
            | some scope => do (← readCommand scope .none rest).command scope

-- The command that some arguments ask for.
def command (args : List String) : Except Stop Command := readTop .none args

end Arguments

end Diglot
