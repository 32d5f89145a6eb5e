import LoxMachine.Session

/-!
# Files

What a session sees of a disk, and a disk that is a given set of files.
-/

namespace LoxMachine

/-- How the names of tests end. -/
def testSuffix : Bytes := utf8 ".test.lox"

/-- Why a file cannot be read. -/
inductive Trouble where
  | missing
  | notDirectory
  | isDirectory
  | nameTooLong
  | invalidPath
  deriving DecidableEq

namespace Trouble

def reason : Trouble → Bytes
  | .missing => utf8 "no such file or directory"
  | .notDirectory => utf8 "not a directory"
  | .isDirectory => utf8 "is a directory"
  | .nameTooLong => utf8 "file name too long"
  | .invalidPath => utf8 "invalid argument"

/-- The trouble with reading a file. A directory can be opened, so that reading it is
what fails. -/
def readMessage (path : Bytes) (trouble : Trouble) : Bytes :=
  let operation := if trouble = .isDirectory then utf8 "read " else utf8 "open "
  operation ++ path ++ utf8 ": " ++ trouble.reason

/-- The trouble with listing what is below a path. -/
def walkMessage (path : Bytes) (trouble : Trouble) : Bytes :=
  utf8 "walk " ++ path ++ utf8 ": lstat " ++ path ++ utf8 ": " ++ trouble.reason

end Trouble

/-- A disk: the contents of a file, and the tests below a directory, which are named
relative to it. -/
structure Disk where
  read : Bytes → Except Trouble Bytes
  tests : Bytes → Except Trouble (List Source)

/-- A disk as the host of a session, with the directory its tests are below. -/
def Disk.host (disk : Disk) (root : Bytes) : Host where
  read := fun uri =>
    match disk.read uri with
    | .ok text => .ok ⟨uri, text⟩
    | .error trouble =>
        .error (utf8 "read " ++ uri ++ utf8 ": " ++ trouble.readMessage uri)
  testSources := (disk.tests root).mapError (·.walkMessage root)

/-! ## Texts in memory -/

/-- Sources in the bytewise order of their names. -/
def Source.sortByUri (sources : List Source) : List Source :=
  sources.mergeSort fun a b => !decide (b.uri < a.uri)

/-- Texts by name as the host of a session. -/
def Host.ofTexts (texts : Bindings Bytes) : Host where
  read := fun uri =>
    match texts.get? uri with
    | some text => .ok ⟨uri, text⟩
    | none => .error (utf8 "read " ++ uri ++ utf8 ": file does not exist")
  testSources :=
    .ok (Source.sortByUri ((texts.entries.filter fun entry =>
      Bytes.endsWith testSuffix entry.1).map fun entry => ⟨entry.1, entry.2⟩))

/-! ## Trees of files -/

/-- Files and directories. Each stands at an absolute path, given as the list of its
parts; the directories above them need not be listed. -/
structure FileTree where
  files : List (List Bytes × Bytes)
  directories : List (List Bytes)

namespace FileTree

/-- What stands at a path. -/
inductive Entry where
  | file (text : Bytes)
  | directory
  deriving DecidableEq

/-- The parts of a path between its slashes. -/
def split : Bytes → List Bytes
  | [] => [[]]
  | b :: rest =>
      if b = 47 then [] :: split rest
      else
        match split rest with
        | [] => [[b]]
        | part :: more => (b :: part) :: more

/-- The parts of a path that are not empty. -/
def parts (path : Bytes) : List Bytes :=
  (split path).filter fun part => !part.isEmpty

/-- The tree of the listed paths below the directory `cwd`, where a path that ends with
a slash is a directory. -/
def ofPaths (cwd : Bytes) (paths : List (Bytes × Bytes)) : FileTree :=
  paths.foldl (fun tree entry =>
    let place := parts cwd ++ parts entry.1
    if entry.1.getLast? = some 47 then { tree with directories := place :: tree.directories }
    else { tree with files := (place, entry.2) :: tree.files }) ⟨[], [parts cwd]⟩

/-- What stands at the path of these parts. -/
def entry? (tree : FileTree) (place : List Bytes) : Option Entry :=
  match tree.files.find? fun file => file.1 = place with
  | some file => some (.file file.2)
  | none =>
      if place.isEmpty || (tree.directories.any fun dir => place.isPrefixOf dir)
          || tree.files.any fun file => place.isPrefixOf file.1 then some .directory
      else none

/-- The most bytes a part of a path can have. -/
def partLimit : Nat := 255

/-- The most bytes a path can have. -/
def pathLimit : Nat := 4095

/-- Follows parts from the directory or file at `place`. The parent of the topmost
directory is that directory itself. -/
def follow (tree : FileTree) : (place : List Bytes) → Entry → List Bytes →
    Except Trouble (List Bytes × Entry)
  | place, entry, [] => .ok (place, entry)
  | _, .file _, _ :: _ => .error .notDirectory
  | place, .directory, part :: rest =>
      if part.isEmpty || part = utf8 "." then follow tree place .directory rest
      else if part = utf8 ".." then follow tree place.dropLast .directory rest
      else if partLimit < part.length then .error .nameTooLong
      else
        match tree.entry? (place ++ [part]) with
        | some entry => follow tree (place ++ [part]) entry rest
        | none => .error .missing

/-- The place a path leads to from the directory `cwd`. -/
def locate (tree : FileTree) (cwd path : Bytes) : Except Trouble (List Bytes × Entry) :=
  if path.contains 0 then .error .invalidPath
  else if path.isEmpty then .error .missing
  else if pathLimit < path.length then .error .nameTooLong
  else
    let start := if path.head? = some 47 then [] else parts cwd
    tree.follow start .directory (split path)

/-- The tests below a place, named relative to it. -/
def testsBelow (tree : FileTree) (place : List Bytes) : List Source :=
  Source.sortByUri (tree.files.filterMap fun file =>
    let name := Bytes.join (utf8 "/") (file.1.drop place.length)
    if place.isPrefixOf file.1 && Bytes.endsWith testSuffix name then some ⟨name, file.2⟩
    else none)

/-- A tree as a disk with the working directory `cwd`. A single file that is a test is
named by a dot. -/
def disk (tree : FileTree) (cwd : Bytes) : Disk where
  read := fun path => do
    match ← tree.locate cwd path with
    | (_, .file text) => return text
    | (_, .directory) => throw .isDirectory
  tests := fun root => do
    match ← tree.locate cwd root with
    | (_, .file text) =>
        return if Bytes.endsWith testSuffix root then [⟨utf8 ".", text⟩] else []
    | (place, .directory) => return tree.testsBelow place

end FileTree

end LoxMachine
