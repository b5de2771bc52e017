import Clausal.Files.Fault
/-! Paths as text, with slashes between the steps. The text of a path alone says which directory the
path is in; where the path leads depends on the files. -/
namespace Clausal.Path

/-- The steps of a path: a name leads into a directory, `.` nowhere and `..` to the directory
above. -/
def steps (path : String) : List String :=
  (path.splitOn "/").filter (· ≠ "")

/-- Whether a path starts at the root of all files. -/
def isAbsolute (path : String) : Bool :=
  path.startsWith "/"

/-- Whether a name has more than the 255 bytes that a name may have. -/
def isLongName (name : String) : Bool :=
  255 < name.utf8ByteSize

/-- What is wrong with the text of a path, if anything: the character that ends paths is in it, it
is empty, or it has more than 4095 bytes. -/
def fault? (path : String) : Option FileFault :=
  if path.contains '\x00' then some .nulInName
  else if path.isEmpty then some .notFound
  else if 4095 < path.utf8ByteSize then some .nameTooLong
  else none

/-- The path of something in a directory. -/
def join (directory name : String) : String :=
  if isAbsolute name || directory.isEmpty then name
  else if directory.endsWith "/" then directory ++ name
  else directory ++ "/" ++ name

/-- A reversed path without the slashes and the steps to nowhere at its end. -/
def trimmed (path : List Char) : List Char :=
  match path with
  | '/' :: rest => trimmed rest
  | '.' :: '/' :: rest => trimmed ('/' :: rest)
  | rest => rest
termination_by path.length

/-- The path of the directory that something is in. The empty path stands for the current directory;
the root and the current directory itself are in none. -/
def parent? (path : String) : Option String :=
  let kept := trimmed path.toList.reverse
  if kept.isEmpty then none
  else
    let above := trimmed (kept.dropWhile (· ≠ '/'))
    if above.isEmpty && isAbsolute path then some "/"
    else some (String.ofList above.reverse)

end Clausal.Path
