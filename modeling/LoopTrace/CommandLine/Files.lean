/-!
# Files

The files that commands see, as two functions of a path, and a working directory as an instance: texts
under names. A path may go through directories, each of which has to hold some file.
-/

namespace LoopTrace.CommandLine

/-- What a command can do with files. -/
structure Files where
  /-- The text at a path, if it can be read. -/
  read? : String → Option String
  /-- The name under which a text can be written at a path. -/
  writable? : String → Option String := some

/-- The files of a working directory. -/
structure Directory where
  files : List (String × String) := []
  deriving DecidableEq, Repr

namespace Directory

/-- The parts of a file's name. -/
def parts (name : String) : List String := name.splitOn "/"

/-- Whether the parts name a directory: the working directory or one in which a file lies. -/
def isDirectory (d : Directory) (path : List String) : Bool :=
  path.isEmpty || d.files.any fun file => path.isPrefixOf (parts file.1) && path ≠ parts file.1

/-- Follows a path to a file from the directory with the given parts, last one first. Nothing is known of
what lies outside the working directory. -/
def follow (d : Directory) (reversed : List String) : List String → Option (List String)
  | [] => none
  | [name] => if name = "" ∨ name = "." ∨ name = ".." then none else some (name :: reversed).reverse
  | name :: rest =>
    if name = "" ∨ name = "." then d.follow reversed rest
    else if name = ".." then
      match reversed with
      | [] => none
      | _ :: above => d.follow above rest
    else if d.isDirectory (name :: reversed).reverse then d.follow (name :: reversed) rest
    else none

/-- The name under which the file at a path is known. -/
def resolve? (d : Directory) (path : String) : Option String :=
  if path.startsWith "/" then none else (d.follow [] (parts path)).map ("/".intercalate ·)

/-- What a command can do with the files of the directory. -/
def access (d : Directory) : Files where
  read? path := (d.resolve? path).bind fun name => d.files.lookup name
  writable? path := (d.resolve? path).filter fun name => ! d.isDirectory (parts name)

end Directory

end LoopTrace.CommandLine
