/-! # Files

    What goes wrong when a file is read, and a directory of files that is held
    in memory.  Paths are followed name by name; a path through a file, or to a
    directory, cannot be read.

    Around the directory lies a file system of which nothing is known but that
    two dots lead up in it, and that its top is a directory. -/

namespace IntegerProgramming.CommandLine

/-- Why a file cannot be read. -/
inductive FileFault where
  | missing
  | isDirectory
  | notDirectory
  /-- A name, or the whole path, is longer than a file system takes. -/
  | nameTooLong
  | other (cause : String)
  deriving DecidableEq

def FileFault.message : FileFault → String
  | .missing => "No such file or directory (os error 2)"
  | .isDirectory => "Is a directory (os error 21)"
  | .notDirectory => "Not a directory (os error 20)"
  | .nameTooLong => "File name too long (os error 36)"
  | .other cause => cause

/-- The most bytes of a name. -/
def longestName : Nat := 255

/-- The most bytes of a path. -/
def longestPath : Nat := 4095

/-- Files by the names on the way to them. -/
structure Directory where
  files : List (List String × String)

namespace Directory

def ofList (files : List (String × String)) : Directory where
  files := files.map fun (path, content) => (path.splitOn "/", content)

/-- A file of exactly this path. -/
def file? (d : Directory) (path : List String) : Option String := d.files.lookup path

/-- Some file lies below this path; the directory itself is there even if it
    is empty. -/
def HasBelow (d : Directory) (path : List String) : Prop :=
  path = [] ∨ ∃ f ∈ d.files, path.isPrefixOf f.1 = true ∧ path.length < f.1.length

instance (d : Directory) (path : List String) : Decidable (d.HasBelow path) :=
  inferInstanceAs (Decidable (_ ∨ _))

/-- A place on the way along a path. -/
inductive Position where
  /-- Somewhere above the directory. -/
  | above
  /-- In the directory, or in a directory below it. -/
  | inside (path : List String)

/-- Where two dots lead to. -/
def Position.up : Position → Position
  | .above | .inside [] => .above
  | .inside path => .inside path.dropLast

/-- Follows the names of a path.  Empty names and single dots stay where they
    are. -/
def follow (d : Directory) : Position → List String → Except FileFault String
  | _, [] => .error .isDirectory
  | here, name :: rest =>
    if name = "" ∨ name = "." then follow d here rest
    else if name = ".." then follow d here.up rest
    else if longestName < name.utf8ByteSize then .error .nameTooLong
    else
      match here with
      | .above => .error .missing
      | .inside path =>
        match d.file? (path ++ [name]) with
        | some content => if rest = [] then .ok content else .error .notDirectory
        | none =>
          if d.HasBelow (path ++ [name]) then follow d (.inside (path ++ [name])) rest
          else .error .missing

/-- Reads a file.  Paths that begin with a slash start at the top of the file
    system. -/
def read (d : Directory) (path : String) : Except FileFault String :=
  if longestPath < path.utf8ByteSize then .error .nameTooLong
  else d.follow (if path.startsWith "/" then .above else .inside []) (path.splitOn "/")

end Directory

end IntegerProgramming.CommandLine
