import DocLint.Path

/-!
# File trees

A file tree is a list of places, each a directory or a file with its bytes, as seen from a working directory.  A
place is the list of names that lead to it from the root, which is always a directory.  Paths are looked up
segment by segment, and every segment has to start from a directory.
-/
namespace DocLint

open DocLint.Text

inductive IoError where
  | notFound
  | notDirectory
  | isDirectory
  | invalidText
  | nameTooLong
  | nulInName
  deriving DecidableEq, Repr

def IoError.message : IoError → String
  | .notFound => "No such file or directory (os error 2)"
  | .notDirectory => "Not a directory (os error 20)"
  | .isDirectory => "Is a directory (os error 21)"
  | .invalidText => "stream did not contain valid UTF-8"
  | .nameTooLong => "File name too long (os error 36)"
  | .nulInName => "file name contained an unexpected NUL byte"

inductive Node where
  | directory
  | file (content : ByteArray)

/-- The names that lead from the root to a file or directory. -/
abbrev Place := List (List Char)

/-- The path of a place. -/
def Place.path (place : Place) : Path := ⟨'/' :: joinWith ['/'] place⟩

/-- The place that a path names as seen from another place, whether anything is there or not. -/
def Place.resolve (start : Place) (p : Path) : Place :=
  (splitOn '/' p.chars).foldl
    (fun place segment =>
      if Path.isNoise segment then place
      else if segment = ['.', '.'] then place.dropLast
      else place ++ [segment])
    (if p.isAbsolute then [] else start)

structure FileTree where
  nodes : List (Place × Node)
  workingDirectory : Place

namespace FileTree

variable (t : FileTree)

def node? (place : Place) : Option Node :=
  if place = [] then some .directory else t.nodes.lookup place

/-- The most bytes that a name may have. -/
def nameLimit : Nat := 255

/-- The most bytes that a path may have. -/
def pathLimit : Nat := 4095

/-- The place that a segment leads to from another place. -/
def step (place : Place) (segment : List Char) : Except IoError Place :=
  match t.node? place with
  | none => .error .notFound
  | some (.file _) => .error .notDirectory
  | some .directory =>
    if Path.isNoise segment then .ok place
    else if segment = ['.', '.'] then .ok place.dropLast
    else if nameLimit < byteLength segment then .error .nameTooLong
    else if (t.node? (place ++ [segment])).isSome then .ok (place ++ [segment])
    else .error .notFound

/-- The place of a path.  The empty path has none, nor has one that no system call takes. -/
def locate (p : Path) : Except IoError Place :=
  if p.chars.contains '\x00' then .error .nulInName
  else if pathLimit < byteLength p.chars then .error .nameTooLong
  else
    match p.chars with
    | [] => .error .notFound
    | '/' :: cs => (splitOn '/' cs).foldlM t.step []
    | cs => (splitOn '/' cs).foldlM t.step t.workingDirectory

def stat (p : Path) : Except IoError Node := do
  match t.node? (← t.locate p) with
  | some node => .ok node
  | none => .error .notFound

def isFile (p : Path) : Bool :=
  match t.stat p with
  | .ok (.file _) => true
  | _ => false

/-- Is there anything at a path? -/
def holds (p : Path) : Bool :=
  match t.stat p with
  | .ok _ => true
  | .error _ => false

/-- The absolute path of what is at a path. -/
def canonical? (p : Path) : Option Path := (t.locate p).toOption.map Place.path

def readBytes (p : Path) : Except IoError ByteArray := do
  match ← t.stat p with
  | .file content => .ok content
  | .directory => .error .isDirectory

def readText (p : Path) : Except IoError String := do
  match String.fromUTF8? (← t.readBytes p) with
  | some text => .ok text
  | none => .error .invalidText

/-- The tree with a file at a place, in place of what was there. -/
def put (place : Place) (content : ByteArray) : FileTree :=
  { t with nodes := (place, .file content) :: t.nodes.filter fun e => e.1 != place }

/-- The tree with a directory at a place and with all directories above it. -/
def makeDirectories (place : Place) : FileTree :=
  { t with
    nodes := (List.range place.length).foldl
      (fun nodes n =>
        let above := place.take (n + 1)
        if (nodes.lookup above).isSome then nodes else nodes ++ [(above, .directory)])
      t.nodes }

/-- The tree with a file at a place and with all directories above it. -/
def addFile (place : Place) (content : ByteArray) : FileTree :=
  (t.makeDirectories place.dropLast).put place content

/-- The tree after a text was written to a path, whose directory has to exist. -/
def write (p : Path) (text : String) : Except IoError FileTree :=
  match t.locate p with
  | .ok place =>
    match t.node? place with
    | some .directory => .error .isDirectory
    | _ => .ok (t.put place text.toUTF8)
  | .error .notFound => do
    let directory ← t.locate ((p.parent?.filter fun d => d.chars ≠ []).getD ⟨['.']⟩)
    match p.fileName? with
    | some name => .ok (t.put (directory ++ [name]) text.toUTF8)
    | none => .error .notFound
  | .error e => .error e

/-- The files that are new or different in another tree. -/
def changes (after : FileTree) : List (Place × ByteArray) :=
  after.nodes.filterMap fun e =>
    match e.2, t.nodes.lookup e.1 with
    | .file new, some (.file old) => if new.data == old.data then none else some (e.1, new)
    | .file new, _ => some (e.1, new)
    | .directory, _ => none

/-- The working directory as a path. -/
def workingPath : Path := Place.path t.workingDirectory

end FileTree
end DocLint
