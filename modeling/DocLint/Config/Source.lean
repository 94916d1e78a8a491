import DocLint.Environment
import DocLint.FileTree

/-!
# Where a configuration comes from

A configuration that is asked for wins.  Otherwise the search starts from the directory that is checked, or that
of the file that is checked, and goes upwards; it ends with the first directory that looks like the root of a
project.  Without a configuration of the project, that of the user counts, and last the defaults.
-/
namespace DocLint

inductive ConfigSource where
  | explicit (path : Path)
  | project (path : Path)
  | user (path : Path)
  | default
  deriving DecidableEq, Repr

namespace ConfigSource

def path? : ConfigSource → Option Path
  | explicit p | project p | user p => some p
  | default => none

/-- The names of a project's configuration, the preferred one first. -/
def names : List Path := [.ofString "yuidoc-lint.toml", .ofString ".yuidoc-lint.toml"]

/-- What marks the root of a project. -/
def rootMarkers : List Path := [.ofString "package.json", .ofString ".git"]

def userFileName : Path := .ofString "config.toml"

/-- The configuration in a directory. -/
def inDirectory? (t : FileTree) (directory : Path) : Option Path :=
  (names.map (directory / ·)).find? t.isFile

def isProjectRoot (t : FileTree) (directory : Path) : Bool :=
  rootMarkers.any fun m => t.holds (directory / m)

/-- The first configuration in some directories, up to the first root of a project. -/
def search (t : FileTree) : List Path → Option Path
  | [] => none
  | d :: ds =>
    match inDirectory? t d with
    | some found => some found
    | none => if isProjectRoot t d then none else search t ds

/-- The configuration of the project that a directory belongs to. -/
def findProject? (t : FileTree) (start : Path) : Option Path := search t start.ancestors

/-- The directory from which the search for a configuration starts. -/
def startDirectory (t : FileTree) (checked : Path) : Path :=
  let directory := if t.isFile checked then checked.parent?.getD checked else checked
  (t.canonical? directory).getD directory

/-- The configuration of a user. -/
def userFile? (t : FileTree) (userDirectory : Option Path) : Option Path :=
  (userDirectory.map (· / userFileName)).filter t.isFile

def resolve (t : FileTree) (userDirectory explicit : Option Path) (checked : Path) : ConfigSource :=
  match explicit with
  | some p => .explicit p
  | none =>
    match findProject? t (startDirectory t checked) with
    | some p => .project p
    | none =>
      match userFile? t userDirectory with
      | some p => .user p
      | none => .default

end ConfigSource
end DocLint
