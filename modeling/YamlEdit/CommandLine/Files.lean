import YamlEdit.CommandLine.Report

/-!
# Files in a working directory

Files with their contents, as they are found by relative paths.
-/

namespace YamlEdit

namespace CommandLine

/-- Names and contents; a name may have directories in front, each followed by a slash. -/
abbrev Files := List (Text × Text)

/-- The parts of a path between its slashes. -/
def pathParts (path : Text) : List Text :=
  match path with
  | [] => [[]]
  | c :: rest =>
    if c = '/' then [] :: pathParts rest
    else match pathParts rest with
      | [] => [[c]]
      | part :: parts => (c :: part) :: parts

namespace Files

/-- Whether some file lies below a directory, which is given by the parts of its path. -/
def hasDirectory (files : Files) (directory : List Text) : Bool :=
  directory.isEmpty ||
    files.any fun (name, _) =>
      let parts := pathParts name
      directory.length < parts.length && parts.take directory.length == directory

/-- Paths that differ only in how they are written name one file. -/
def hasFile (files : Files) (parts : List Text) : Bool :=
  files.any fun (name, _) => pathParts name == parts

/-- Where the parts of a path lead. -/
inductive Place where
  /-- A place below the working directory. -/
  | below (parts : List Text)
  /-- A place below the root of the system. -/
  | system (parts : List Text)
  /-- A directory around the working directory. Nothing is known to be in it. -/
  | around
  deriving DecidableEq, Repr

/-- The directory that a place lies in. The root lies in itself. -/
def Place.parent : Place → Place
  | below [] | around => around
  | below parts => below parts.dropLast
  | system parts => system parts.dropLast

/-- What has the given name in a directory, if it can be told. -/
def Place.child? (name : Text) : Place → Option Place
  | below parts => some (below (parts ++ [name]))
  | system parts => some (system (parts ++ [name]))
  | around => none

/-- The directories that every system has at its root. -/
def systemDirectories : List Text :=
  ["bin", "boot", "dev", "etc", "home", "lib", "media", "mnt", "opt", "proc", "root", "run",
    "sbin", "srv", "sys", "tmp", "usr", "var"].map (·.toList)

/-- The files of the system that hold nothing: the null device, and the input of a program to
which nothing is sent. -/
def emptyFiles : List (List Text) :=
  [["dev".toList, "null".toList], ["dev".toList, "stdin".toList]]

/-- Whether there is a directory at a place. -/
def isDirectory (files : Files) : Place → Bool
  | .below parts => files.hasDirectory parts
  | .system [] | .around => true
  | .system [name] => systemDirectories.contains name
  | .system _ => false

/-- Whether there is a file at a place. -/
def isFile (files : Files) : Place → Bool
  | .below parts => files.hasFile parts
  | .system parts => emptyFiles.contains parts
  | .around => false

/-- The greatest number of bytes of a name. -/
def maxNameSize : Nat := 255

/-- The greatest number of bytes of a path. -/
def maxPathSize : Nat := 4095

/-- Follows the parts of a path from a place. Only a directory has something in it, even if that is
the directory itself. -/
def walk (files : Files) (place : Place) : List Text → Except FileFault Place
  | [] => .ok place
  | part :: rest =>
    if !files.isDirectory place then
      .error (if files.isFile place then .notDirectory else .missing)
    else if part.isEmpty ∨ part = ['.'] then files.walk place rest
    else if part = ['.', '.'] then files.walk place.parent rest
    else if maxNameSize < Text.size part then .error .nameTooLong
    else match place.child? part with
      | some child => files.walk child rest
      | none => .error .missing

/-- Where the file at a path is. -/
def locate (files : Files) (path : Text) : Except FileFault Place := do
  if path.isEmpty then throw .missing
  if maxPathSize < Text.size path then throw .nameTooLong
  let start := if path.head? = some '/' then Place.system [] else .below []
  let place ← files.walk start (pathParts path)
  if files.isDirectory place then throw .isDirectory
  if files.isFile place then return place
  throw .missing

/-- What the file at a place holds. -/
def contentAt (files : Files) : Place → Text
  | .below parts => ((files.find? fun file => pathParts file.1 == parts).map (·.2)).getD []
  | .system _ | .around => []

/-- What a file holds. -/
def read (files : Files) (path : Text) : Except FileFault Text :=
  files.contentAt <$> files.locate path

/-- The files after the content of the one at a place has changed. -/
def write (files : Files) (place : Place) (content : Text) : Files :=
  files.map fun file =>
    if place = .below (pathParts file.1) then (file.1, content) else file

end Files

end CommandLine

end YamlEdit
