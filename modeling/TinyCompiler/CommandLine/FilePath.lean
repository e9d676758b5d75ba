/-!
# File paths

The last component of a path and its extension.  Components are separated by
slashes; slashes at the end and components `.` are not components.  The
extension is what stands behind the last dot, unless that dot is the first
character.
-/

namespace TinyCompiler.FilePath

/-- A path read from its end, from the last component on. -/
def skipTrail : List Char → List Char
  | '/' :: rest => skipTrail rest
  | '.' :: '/' :: rest => skipTrail rest
  | reversed => reversed

/-- A path up to its last component, and the last component. -/
def splitLast (path : List Char) : List Char × List Char :=
  let reversed := skipTrail path.reverse
  ((reversed.dropWhile (· ≠ '/')).reverse,
    (reversed.takeWhile (· ≠ '/')).reverse)

def isName (component : List Char) : Bool :=
  component ≠ [] && component ≠ ['.'] && component ≠ ['.', '.']

/-- A name up to the dot of its extension, and the extension. -/
def splitExtension (name : List Char) : List Char × Option (List Char) :=
  let reversed := name.reverse
  match reversed.dropWhile (· ≠ '.') with
  | [] => (name, none)
  | [_] => (name, none)
  | _ :: before => (before.reverse, some (reversed.takeWhile (· ≠ '.')).reverse)

def name? (path : String) : Option String :=
  let last := (splitLast path.toList).2
  if isName last then some (String.ofList last) else none

def hasExtension (path : String) : Bool :=
  let last := (splitLast path.toList).2
  isName last && (splitExtension last).2.isSome

/-- A path whose last component has another extension, or one where it had none.
A path that ends in no name stays as it is.  A name of two dots and an extension
has a single dot before that of the extension; what is left of it without the
extension is no name but the way up, which takes no other extension. -/
def withExtension (path extension : String) : String :=
  let (front, last) := splitLast path.toList
  let stem := (splitExtension last).1
  if !isName last then path
  else if isName (stem ++ ['.']) then
    String.ofList (front ++ stem ++ '.' :: extension.toList)
  else String.ofList (front ++ stem ++ ['.'])

end TinyCompiler.FilePath
