import Diglot.CommandLine

-- The program: the command line on the files of the machine.

namespace Diglot

def FileError.ofFailure : IO.Error → FileError
  | .noFileOrDirectory .. => .notFound
  | .alreadyExists .. => .alreadyExists
  -- Some operations give the code of the system with a minus sign.
  | .inappropriateType _ code _ =>
      if code = 21 ∨ code = 0 - 21 then .isDirectory else .notDirectory
  | .userError _ => .notText
  | error => .other (toString error)

def attemptFile {α : Type} (action : IO α) : IO (Except FileError α) := do
  try
    return .ok (← action)
  catch error =>
    return .error (.ofFailure error)

def machine : FileSystem IO where
  read path := attemptFile (IO.FS.readFile path)
  write path text := attemptFile (IO.FS.writeFile path text)
  makeDirs path := attemptFile (IO.FS.createDirAll path)

end Diglot

def main (args : List String) : IO UInt32 := do
  let outcome ← Diglot.CommandLine.run Diglot.machine args
  (← IO.getStdout).putStr outcome.stdout
  (← IO.getStderr).putStr outcome.stderr
  return outcome.exit.toUInt32
