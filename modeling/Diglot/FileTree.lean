import Diglot.FileSystem
import Diglot.Path

namespace Diglot

namespace Path

-- The texts between the slashes of a path, empty ones included.
def pieces : List Char → List (List Char)
  | [] => [[]]
  | c :: rest =>
      if c = '/' then [] :: pieces rest
      else
        match pieces rest with
        | [] => [[c]]
        | first :: more => (c :: first) :: more

-- The names that a path is made of.
def names (path : String) : List String :=
  ((pieces path.toList).filter (· ≠ [])).map String.ofList

-- Whether a path starts at the root of the tree and not in the current directory.
def isAbsolute (path : String) : Bool := path.toList.head? == some '/'

-- Whether a path says that it names a directory.
def endsInSlash (path : String) : Bool := path.toList.getLast? == some '/'

-- From the names of a path, last one first, the names of the paths above it, the longest first.
def parents : List String → List (List String)
  | [] => []
  | _ :: above => above.reverse :: parents above

end Path

-- The names on the way from the root of a tree to a file or directory in it.
abbrev Place := List String

inductive Node where
  | file (bytes : ByteArray)
  | directory

instance : DecidableEq Node
  | .file bytes, .file others =>
      decidable_of_iff (bytes.data = others.data) (by rw [← ByteArray.ext_iff, Node.file.injEq])
  | .directory, .directory => isTrue rfl
  | .file _, .directory | .directory, .file _ => isFalse (by simp)

-- Files in memory, and the directory that paths start from. The root is always a directory.
structure FileTree where
  current : Place
  nodes : List (Place × Node)
  deriving DecidableEq

namespace FileTree

-- What stands at a place.
def find? (tree : FileTree) (place : Place) : Option Node :=
  if place = [] then some .directory
  else (tree.nodes.find? (·.1 == place)).map (·.2)

-- The tree with something else at a place.
def set (tree : FileTree) (place : Place) (node : Node) : FileTree :=
  { tree with nodes := (place, node) :: tree.nodes.filter (·.1 != place) }

@[simp]
theorem find?_set_self (tree : FileTree) {place : Place} (h : place ≠ []) (node : Node) :
    (tree.set place node).find? place = some node := by
  simp [find?, set, h]

@[simp]
theorem find?_set_ne (tree : FileTree) {place other : Place} (h : other ≠ place) (node : Node) :
    (tree.set place node).find? other = tree.find? other := by
  by_cases hroot : other = []
  · simp [find?, hroot]
  · simp only [find?, set, hroot, if_false]
    have hne : (place == other) = false := by simpa using fun he => h he.symm
    have hkept : ∀ entry : Place × Node,
        decide ((entry.1 != place) = true ∧ (entry.1 == other) = true) = (entry.1 == other) := by
      intro entry
      by_cases he : entry.1 = other
      · simp [he, h]
      · simp [he]
    simp only [List.find?_cons, hne, List.find?_filter, hkept]

-- Where a name leads from a directory. There is nothing above the root.
def step (place : Place) (name : String) : Place :=
  if name = "." then place
  else if name = ".." then place.dropLast
  else place ++ [name]

-- Where some names lead, one after the other. Each name but the last has to lead to a directory.
def walk (tree : FileTree) : Place → List String → Except FileError Place
  | place, [] => .ok place
  | place, name :: rest =>
      match tree.find? place with
      | none => .error .notFound
      | some (.file _) => .error .notDirectory
      | some .directory => tree.walk (step place name) rest

-- The place that a path starts from.
def start (tree : FileTree) (path : String) : Place :=
  if Path.isAbsolute path then [] else tree.current

-- The place that a path names. Nothing need stand there.
def locate (tree : FileTree) (path : String) : Except FileError Place :=
  if path.isEmpty then .error .notFound
  else tree.walk (tree.start path) (Path.names path)

-- The text of a file, if its bytes are one.
def read (tree : FileTree) (path : String) : Except FileError String := do
  match tree.find? (← tree.locate path) with
  | none => .error .notFound
  | some .directory => .error .isDirectory
  | some (.file bytes) =>
      if Path.endsInSlash path then .error .notDirectory
      else
        match String.fromUTF8? bytes with
        | some text => .ok text
        | none => .error .notText

-- Makes a file or replaces its text.
def write (tree : FileTree) (path text : String) : Except FileError FileTree := do
  let place ← tree.locate path
  if tree.find? place = some .directory ∨ Path.endsInSlash path then .error .isDirectory
  else return tree.set place (.file text.toUTF8)

-- Makes one directory.
def makeDir (tree : FileTree) (start : Place) (names : List String) :
    Except FileError FileTree := do
  let place ← tree.walk start names
  if (tree.find? place).isSome then .error .alreadyExists
  else return tree.set place .directory

-- Whether a directory stands where some names lead.
def hasDir (tree : FileTree) (start : Place) (names : List String) : Bool :=
  match tree.walk start names with
  | .ok place => tree.find? place == some .directory
  | .error _ => false

-- Makes the first of some directories, each standing in the next, after those that it stands in and
-- that are missing.
def makeChain (start : Place) : List (List String) → FileTree → Except FileError Unit × FileTree
  | [], tree => (.ok (), tree)
  | names :: above, tree =>
      match tree.makeDir start names with
      | .ok made => (.ok (), made)
      | .error .notFound =>
          match makeChain start above tree with
          | (.error error, tree) => (.error error, tree)
          | (.ok (), tree) =>
              match tree.makeDir start names with
              | .ok made => (.ok (), made)
              | .error error => (if tree.hasDir start names then .ok () else .error error, tree)
      | .error error => (if tree.hasDir start names then .ok () else .error error, tree)

-- Makes the directory that some names lead to, and those it stands in. What is made before a
-- failure stays.
def makeAll (start : Place) (names : List String) (tree : FileTree) :
    Except FileError Unit × FileTree :=
  makeChain start (names :: Path.parents (names.filter (· ≠ ".")).reverse) tree

-- Makes a directory and those it stands in.
def makeDirs (path : String) (tree : FileTree) : Except FileError Unit × FileTree :=
  makeAll (tree.start path) (Path.names path) tree

-- The tree as a file system.
def system : FileSystem (StateM FileTree) where
  read path := fun tree => (tree.read path, tree)
  write path text := fun tree =>
    match tree.write path text with
    | .ok tree => (.ok (), tree)
    | .error error => (.error error, tree)
  makeDirs path := fun tree => makeDirs path tree

-- An empty directory to work in.
def empty : FileTree := ⟨["work"], [(["work"], .directory)]⟩

-- Puts a file and the directories it stands in below the current directory. A path that ends in a
-- slash is a directory. What cannot be put there is left out.
def place (tree : FileTree) (path text : String) : FileTree :=
  let names := (Path.names path).filter (· ≠ ".")
  if Path.endsInSlash path then (makeAll tree.current names tree).2
  else
    let tree := (makeAll tree.current names.dropLast tree).2
    match tree.walk tree.current names with
    | .error _ => tree
    | .ok place =>
        if tree.find? place = some .directory then tree
        else tree.set place (.file text.toUTF8)

-- A directory that holds some files.
def ofListing (files : List (String × String)) : FileTree :=
  files.foldl (fun tree (path, text) => tree.place path text) empty

-- Everything below the current directory but files that are no texts. Directories end in a slash
-- and have no text.
def listing (tree : FileTree) : List (String × String) :=
  tree.nodes.filterMap fun (place, node) =>
    if tree.current.isPrefixOf place && place ≠ tree.current then
      let path := "/".intercalate (place.drop tree.current.length)
      match node with
      | .file bytes => (String.fromUTF8? bytes).map (path, ·)
      | .directory => some (path ++ "/", "")
    else none

end FileTree

end Diglot
