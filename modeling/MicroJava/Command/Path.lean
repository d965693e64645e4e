/-! # Paths

The parts of a slash-separated path: its components, the name of the file it ends in, and the
extension of that name. Slashes and `.` components at the end do not count. -/

namespace MicroJava.Path

/-- Drops slashes and `.` components from the end; the characters are in reverse order. -/
def dropTail : List Char → List Char
  | '/' :: rest => dropTail rest
  | '.' :: '/' :: rest => dropTail rest
  | cs => cs

/-- A path that ends in a file name: what stands before the name, and the name. -/
def split (path : String) : List Char × List Char :=
  let tail := dropTail path.toList.reverse
  ((tail.dropWhile (· != '/')).reverse, (tail.takeWhile (· != '/')).reverse)

/-- The name in front of the last dot, and what stands behind that dot. A name has no extension if
it has no dot or starts with its only one. -/
def splitName (name : List Char) : List Char × Option (List Char) :=
  let backwards := name.reverse
  let extension := (backwards.takeWhile (· != '.')).reverse
  match backwards.dropWhile (· != '.') with
  | [] | ['.'] => (name, none)
  | _ :: stem => if name == ['.', '.'] then (name, none) else (stem.reverse, some extension)

/-- The extension of the file that a path ends in. -/
def extension? (path : String) : Option String :=
  (splitName (split path).2).2.map String.ofList

/-- The path with another extension. -/
def withExtension (path extension : String) : String :=
  let (front, name) := split path
  String.ofList front ++ String.ofList (splitName name).1 ++ "." ++ extension

/-- The components of a path, without `.`. -/
def components (path : String) : List String :=
  (path.splitOn "/").filter fun c => c != "" && c != "."

end MicroJava.Path
