namespace Diglot

-- Why a file operation fails.
inductive FileError where
  | notFound
  | alreadyExists
  | notDirectory
  | isDirectory
  | notText
  | other (text : String)
  deriving DecidableEq, Repr

def FileError.message : FileError → String
  | .notFound => "No such file or directory (os error 2)"
  | .alreadyExists => "File exists (os error 17)"
  | .notDirectory => "Not a directory (os error 20)"
  | .isDirectory => "Is a directory (os error 21)"
  | .notText => "stream did not contain valid UTF-8"
  | .other text => text

-- The file operations that the commands need. `write` makes the file or replaces its text, but
-- makes no directory; `makeDirs` makes a directory and those it stands in, and is content with one
-- that is there.
structure FileSystem (m : Type → Type) where
  read : String → m (Except FileError String)
  write : String → String → m (Except FileError Unit)
  makeDirs : String → m (Except FileError Unit)

end Diglot
