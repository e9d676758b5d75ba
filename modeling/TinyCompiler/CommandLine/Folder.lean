/-!
# A folder of files

The files that a session can read and write, by the names that lead to them from
the folder it runs in.  The directories below it are those that lead to a file.
Nothing is known of what else the directories above it hold: there a path finds
no file to read, and a file it writes does not show in the folder.
-/

namespace TinyCompiler

inductive FileError where
  | noSuchFile
  | notDirectory
  | isDirectory
  | nameTooLong
  | invalidText
  | other (reason : String)
  deriving DecidableEq, Repr

def FileError.message : FileError → String
  | .noSuchFile => "No such file or directory (os error 2)"
  | .notDirectory => "Not a directory (os error 20)"
  | .isDirectory => "Is a directory (os error 21)"
  | .nameTooLong => "File name too long (os error 36)"
  | .invalidText => "stream did not contain valid UTF-8"
  | .other reason => reason

/-- The names that lead from the folder to a file or directory. -/
abbrev Location := List (List Char)

structure Folder where
  files : List (Location × ByteArray)

namespace Folder

inductive Whereabouts where
  | inside (location : Location)
  /-- A directory above the folder. -/
  | above
  /-- A name in a directory above the folder. -/
  | beyond
  deriving DecidableEq, Repr

inductive Place where
  | file (contents : ByteArray)
  | directory
  | vacant

/-- The components of a path, empty ones included. -/
def components : List Char → List (List Char)
  | [] => [[]]
  | '/' :: rest => [] :: components rest
  | c :: rest =>
      match components rest with
      | [] => [[c]]
      | first :: others => (c :: first) :: others

def lookup? (folder : Folder) (location : Location) : Option ByteArray :=
  (folder.files.find? fun file => file.1 = location).map (·.2)

def place (folder : Folder) : Whereabouts → Place
  | .above => .directory
  | .beyond => .vacant
  | .inside location =>
      match folder.lookup? location with
      | some contents => .file contents
      | none =>
          if location = [] || folder.files.any fun file =>
              location.isPrefixOf file.1 then
            .directory
          else .vacant

def Whereabouts.parent : Whereabouts → Whereabouts
  | .inside [] => .above
  | .inside location => .inside location.dropLast
  | place => place

/-- What stands under a name in a directory. -/
def Whereabouts.child (name : List Char) : Whereabouts → Whereabouts
  | .inside location => .inside (location ++ [name])
  | _ => .beyond

def maxNameBytes : Nat := 255

def maxPathBytes : Nat := 4095

/-- Where the rest of a path leads.  Only directories can be gone through. -/
def walk (folder : Folder) :
    Whereabouts → List (List Char) → Except FileError Whereabouts
  | place, [] => .ok place
  | place, component :: rest =>
      match folder.place place with
      | .vacant => .error .noSuchFile
      | .file _ => .error .notDirectory
      | .directory =>
          if component = [] || component = ['.'] then folder.walk place rest
          else if component = ['.', '.'] then folder.walk place.parent rest
          else if maxNameBytes < (String.ofList component).utf8ByteSize then
            .error .nameTooLong
          else folder.walk (place.child component) rest

/-- Where components of a path lead.  A path that begins with a slash leads down
from the uppermost directory. -/
def follow (folder : Folder) (path : String) (way : List (List Char)) :
    Except FileError Whereabouts :=
  if path = "" then .error .noSuchFile
  else if maxPathBytes < path.utf8ByteSize then .error .nameTooLong
  else
    let start := if path.toList.head? = some '/' then .above else .inside []
    folder.walk start way

def read (folder : Folder) (path : String) : Except FileError ByteArray := do
  let place ← folder.follow path (components path.toList)
  match folder.place place with
  | .file contents => .ok contents
  | .directory => .error .isDirectory
  | .vacant => .error .noSuchFile

def put (folder : Folder) (location : Location) (contents : ByteArray) :
    Folder where
  files :=
    if (folder.lookup? location).isSome then
      folder.files.map fun file =>
        if file.1 = location then (location, contents) else file
    else folder.files ++ [(location, contents)]

/-- The components of a path that ends in slashes, up to the directory that
holds the last of them. -/
def enclosing (way : List (List Char)) : List (List Char) :=
  (way.reverse.dropWhile (· = [])).tail.reverse ++ [[]]

/-- A folder with a text written at the end of a path.  A path that ends in a
slash is one of a directory, whether or not it exists in the directory that
holds it. -/
def write (folder : Folder) (path text : String) : Except FileError Folder := do
  let way := components path.toList
  if way.getLast? = some [] then
    let _ ← folder.follow path (enclosing way)
    .error .isDirectory
  else
    let place ← folder.follow path way
    match folder.place place, place with
    | .directory, _ => .error .isDirectory
    | _, .inside location => .ok (folder.put location text.toUTF8)
    | _, _ => .ok folder

def ofFiles (files : List (String × ByteArray)) : Folder :=
  files.foldl (fun folder file =>
    folder.put (components file.1.toList) file.2) ⟨[]⟩

def path (location : Location) : String :=
  "/".intercalate (location.map String.ofList)

/-- The files that are new in `after` or have other contents there. -/
def changes (before after : Folder) : List (String × ByteArray) :=
  (after.files.filter fun file => before.lookup? file.1 != some file.2).map
    fun file => (path file.1, file.2)

end Folder

end TinyCompiler
