import Sigil.Table

/-!
# Files of the command line

The command sees a file system and is called in one of its directories. A `Path` is a file name
without its empty and `.` components, and this is the form in which file names are shown.
`Disk.find` follows a name component by component through the directories there are: from the root
if the name is absolute, and from the working directory if it is not. Names may lead anywhere, also
out of the working directory.

There are no links, no names are too long, every file can be read, and a file can be written
wherever there is no directory.
-/

namespace Sigil.CommandLine

/-- A file name by its components. -/
structure Path where
  /-- The slashes in front of an absolute name. -/
  root : String
  /-- The components. -/
  parts : List String
  deriving DecidableEq, Repr

namespace Path

/-- The components of a text between slashes. -/
def components (text : String) : List String :=
  let (last, done) := text.toList.foldr
    (fun c (current, done) => if c = '/' then ([], current :: done) else (c :: current, done))
    (([] : List Char), ([] : List (List Char)))
  (last :: done).map String.ofList

/-- The path of a text. Just two slashes in front are kept apart from one. -/
def ofString (text : String) : Path where
  root :=
    match text.toList with
    | '/' :: '/' :: '/' :: _ => "/"
    | '/' :: '/' :: _ => "//"
    | '/' :: _ => "/"
    | _ => ""
  parts := (components text).filter fun part => part != "" && part != "."

/-- The text of a path. -/
def toString (p : Path) : String :=
  if p.root == "" && p.parts.isEmpty then "." else p.root ++ "/".intercalate p.parts

/-- The path with more text at the end of its last component. -/
def extend (p : Path) (ending : String) : Path :=
  match p.parts.reverse with
  | [] => p
  | last :: front => { p with parts := ((last ++ ending) :: front).reverse }

end Path

/-- A file system with a working directory. All names are given from the root. -/
structure Disk where
  /-- The name of the working directory. -/
  home : String
  /-- The names of directories. Those that have a file below them need no mention. -/
  directories : List String
  /-- The texts of the files. -/
  files : Table String

/-- What a name stands for. -/
inductive Entry where
  /-- A file with its text. -/
  | file (text : String)
  /-- A directory. -/
  | directory
  /-- Nothing. -/
  | missing
  deriving DecidableEq, Repr

/-- Whether there is a directory. -/
def Entry.isDirectory : Entry → Bool
  | .directory => true
  | _ => false

namespace Disk

/-- Whether the components from the root name a directory: there is a directory of this name, or a
directory or a file below it. -/
def isDirectory (d : Disk) (parts : List String) : Bool :=
  ((d.home :: d.directories).any fun name => parts.isPrefixOf (Path.ofString name).parts) ||
    d.files.keys.any fun name =>
      let own := (Path.ofString name).parts
      parts.isPrefixOf own && parts.length < own.length

/-- Follows components from a place, which is given by its components from the root, innermost
first. Only a directory can be left. The root is above itself. -/
def follow (d : Disk) (here : List String) : List String → Option (List String)
  | [] => some here
  | part :: rest =>
    if d.isDirectory here.reverse then
      d.follow (if part = ".." then here.tail else part :: here) rest
    else none

/-- The place where a path starts. -/
def start (d : Disk) (p : Path) : List String :=
  if p.root = "" then (Path.ofString d.home).parts.reverse else []

/-- The place that a path leads to. -/
def resolve (d : Disk) (p : Path) : Option (List String) :=
  d.follow (d.start p) p.parts

/-- The name of a place. -/
def nameOf (place : List String) : String :=
  Path.toString ⟨"/", place.reverse⟩

/-- What a path stands for. -/
def find (d : Disk) (p : Path) : Entry :=
  match d.resolve p with
  | none => .missing
  | some place =>
    match d.files.get? (nameOf place) with
    | some text => .file text
    | none => if d.isDirectory place.reverse then .directory else .missing

/-- Writes a file, if the path leads anywhere. -/
def write (d : Disk) (p : Path) (text : String) : Disk :=
  match d.resolve p with
  | some place => { d with files := d.files.insert (nameOf place) text }
  | none => d

end Disk

end Sigil.CommandLine
