import Clausal.Files.Path
/-! The files below a directory, as a value. Reading, writing and making directories fail the way
they do on a disk. A place is named by the steps that lead to it from the directory: names, after a
step up for each directory that it is above. The root of all files is a place of its own. -/
namespace Clausal

/-- What is at a place. -/
inductive FileNode where
  | file (bytes : ByteArray)
  | directory
deriving Inhabited

/-- The steps from the directory to a place. -/
abbrev Place := List String

namespace Place

/-- The root of all files. -/
def root : Place := ["/"]

/-- Whether a place is the directory itself or one that it is in. -/
def isAbove (place : Place) : Bool :=
  place.all (· = "..") || place = root

/-- Whether a place is below the directory. -/
def isBelow (place : Place) : Bool :=
  match place.head? with
  | some step => step ≠ ".." && step ≠ "/"
  | none => false

/-- The directory that a place is in. -/
def up (place : Place) : Place :=
  if place = root then root
  else if place.isAbove then place ++ [".."]
  else place.dropLast

end Place

/-- What a path leads to. -/
inductive Target where
  /-- A directory, to which the last step stays or goes up. -/
  | directory (place : Place)
  /-- What has a name, if there is anything; with a slash behind the name only a directory can have
  it. -/
  | named (place : Place) (slash : Bool)
deriving Inhabited

/-- The files and directories below a directory, each with its place. -/
structure FileTree where
  nodes : List (Place × FileNode) := []
deriving Inhabited

namespace FileTree

/-- What is at a place, if there is anything. Of what is not below the directory only the
directories on the way to it are there. -/
def node? (t : FileTree) (place : Place) : Option FileNode :=
  if place.isAbove then some .directory
  else (t.nodes.find? (·.1 = place)).map (·.2)

/-- Puts something at a place. -/
def put (place : Place) (node : FileNode) : List (Place × FileNode) → List (Place × FileNode)
  | [] => [(place, node)]
  | (p, n) :: rest =>
    if p = place then (p, node) :: rest
    else if place < p then (place, node) :: (p, n) :: rest
    else (p, n) :: put place node rest

/-- The tree with something at a place. -/
def insert (t : FileTree) (place : Place) (node : FileNode) : FileTree :=
  ⟨put place node t.nodes⟩

/-- The tree with something new at a place. The root takes nothing new. -/
def create (t : FileTree) (place : Place) (node : FileNode) : Except FileFault FileTree :=
  if place.up = Place.root then .error .notPermitted else .ok (t.insert place node)

/-- Takes a step that has to end in a directory. -/
def enter (t : FileTree) (here : Place) (step : String) : Except FileFault Place :=
  if step = "." then .ok here
  else if step = ".." then .ok here.up
  else if Path.isLongName step then .error .nameTooLong
  else
    let place := here ++ [step]
    match t.node? place with
    | none => .error .notFound
    | some (.file _) => .error .notDirectory
    | some .directory => .ok place

/-- Goes along the steps of a path. There need not be anything at the last one. -/
def walk (t : FileTree) (slash : Bool) : (here : Place) → List String → Except FileFault Target
  | here, [] => .ok (.directory here)
  | here, [step] =>
    if step = "." then .ok (.directory here)
    else if step = ".." then .ok (.directory here.up)
    else .ok (.named (here ++ [step]) slash)
  | here, step :: next :: rest => do
    t.walk slash (← t.enter here step) (next :: rest)

/-- What a path leads to. -/
def target (t : FileTree) (path : String) : Except FileFault Target :=
  match Path.fault? path with
  | some fault => .error fault
  | none =>
    t.walk (path.endsWith "/") (if Path.isAbsolute path then Place.root else []) (Path.steps path)

/-- What is at a place whose last step is a name. -/
def named? (t : FileTree) (place : Place) : Except FileFault (Option FileNode) :=
  if Path.isLongName (place.getLastD "") then .error .nameTooLong else .ok (t.node? place)

/-- What is at a path. -/
def find (t : FileTree) (path : String) : Except FileFault FileNode := do
  match ← t.target path with
  | .directory _ => return .directory
  | .named place slash =>
    match ← t.named? place with
    | none => throw .notFound
    | some (.file bytes) => if slash then throw .notDirectory else return .file bytes
    | some .directory => return .directory

/-- Whether there is anything at a path. -/
def contains (t : FileTree) (path : String) : Bool :=
  (t.find path).toOption.isSome

/-- Whether there is a directory at a path. -/
def containsDirectory (t : FileTree) (path : String) : Bool :=
  match t.find path with
  | .ok .directory => true
  | _ => false

/-- The contents of the file at a path. -/
def read (t : FileTree) (path : String) : Except FileFault ByteArray := do
  match ← t.find path with
  | .file bytes => return bytes
  | .directory => throw .isDirectory

/-- The tree with a file at a path, in place of one that is there. -/
def write (t : FileTree) (path : String) (bytes : ByteArray) : Except FileFault FileTree := do
  match ← t.target path with
  | .directory _ => throw .isDirectory
  | .named place slash =>
    if slash then throw .isDirectory
    match ← t.named? place with
    | none => t.create place (.file bytes)
    | some (.file _) => return t.insert place (.file bytes)
    | some .directory => throw .isDirectory

/-- The tree with a new directory at a path. -/
def makeDirectory (t : FileTree) (path : String) : Except FileFault FileTree := do
  match ← t.target path with
  | .directory _ => throw .alreadyExists
  | .named place _ =>
    match ← t.named? place with
    | none => t.create place .directory
    | some _ => throw .alreadyExists

/-- Makes a directory at a path. Where the directory that it goes into is missing, that one is made
first, and so on, up to `above` times. A directory that is there is as good as a new one. What was
made before a failure stays. -/
def makeUpTo : (above : Nat) → (path : String) → FileTree → Except FileFault Unit × FileTree
  | 0, _, t => (.ok (), t)
  | above + 1, path, t =>
    let settle (t : FileTree) (made : Except FileFault FileTree) :=
      match made with
      | .ok t => (.ok (), t)
      | .error fault => (if t.containsDirectory path then .ok () else .error fault, t)
    if path.isEmpty then (.ok (), t)
    else
      match t.makeDirectory path, Path.parent? path with
      | .error .notFound, some parent =>
        match makeUpTo above parent t with
        | (.ok (), t) => settle t (t.makeDirectory path)
        | (.error fault, t) => (.error fault, t)
      | made, _ => settle t made

/-- Makes a directory at a path, and all directories above it. -/
def makeDirectories (t : FileTree) (path : String) : Except FileFault Unit × FileTree :=
  makeUpTo (path.length + 1) path t

/-- Why the program with a name cannot be started. A path with a slash leads to no program, and a
name is looked for among the programs of the machine, where only the steps to a directory lead
somewhere. -/
def startFault (t : FileTree) (executable : String) : FileFault :=
  if executable.contains '/' then
    match t.find executable with
    | .ok _ => .notPermitted
    | .error fault => fault
  else if executable = "." || executable = ".." then .notPermitted
  else if Path.isLongName executable then .nameTooLong
  else .notFound

/-- All paths below the directory in order, each with its contents; directories have a slash at the
end instead. -/
def listing (t : FileTree) : List (String × Option ByteArray) :=
  (t.nodes.filter (·.1.isBelow)).map fun (place, node) =>
    match node with
    | .file bytes => ("/".intercalate place, some bytes)
    | .directory => ("/".intercalate place ++ "/", none)

end FileTree
end Clausal
