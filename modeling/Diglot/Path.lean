import Diglot.Dialect

namespace Diglot

namespace Path

-- A path from its end, without the slashes and the `/.` parts at that end.
def dropTail : List Char → List Char
  | '/' :: rest => dropTail rest
  | '.' :: '/' :: rest => dropTail rest
  | path => path

-- The file name of a path, and what stands in front of it. A path that ends in `.` or `..`, or has
-- no part at all, has no file name.
def split? (path : List Char) : Option (List Char × List Char) :=
  let reversed := dropTail path.reverse
  let name := (reversed.takeWhile (· != '/')).reverse
  if name = [] ∨ name = ['.'] ∨ name = ['.', '.'] then none
  else some ((reversed.dropWhile (· != '/')).reverse, name)

-- The stem and the extension of a file name, divided by its last dot. A dot in front of
-- everything divides nothing.
def splitName (name : List Char) : List Char × Option (List Char) :=
  let extension := (name.reverse.takeWhile (· != '.')).reverse
  let stem := name.take (name.length - extension.length - 1)
  if stem = [] then (name, none) else (stem, some extension)

-- The extension of a path's file name.
def extension? (path : String) : Option String := do
  let (_, name) ← split? path.toList
  let extension ← (splitName name).2
  return String.ofList extension

-- The path up to the stem of its file name, with another extension. Without a file name it stays
-- as it is. Where the stem is a dot and nothing stands behind the name, the path only loses its
-- extension: the `..` that is left is no file name and takes none.
def withExtension (path : String) (extension : String) : String :=
  match split? path.toList with
  | none => path
  | some (front, name) =>
      let stem := (splitName name).1
      if stem = ['.'] ∧ path.toList = front ++ name then String.ofList (front ++ ['.', '.'])
      else String.ofList (front ++ stem ++ '.' :: extension.toList)

-- The file name of a path.
def fileName? (path : String) : Option String :=
  (split? path.toList).map fun (_, name) => String.ofList name

-- A name inside a directory.
def join (directory name : String) : String :=
  if directory.isEmpty || directory.toList.getLast? == some '/' then directory ++ name
  else directory ++ "/" ++ name

end Path

namespace Dialect

-- The notation of a file, told by its extension.
def ofPath? (path : String) : Option Dialect :=
  match Path.extension? path with
  | some "pjs" => some pythonScript
  | some "js" => some javaScript
  | _ => none

-- Where the file that a file in this notation is carried over to stands.
def outputPath (dialect : Dialect) (path : String) : String :=
  Path.withExtension path dialect.target.extension

end Dialect

-- The message about a file whose extension tells no notation.
def unknownDialect (path : String) : String :=
  "unsupported file extension for " ++ path ++ ": expected .pjs or .js"

end Diglot
