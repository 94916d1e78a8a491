import DocLint.FileTree
import DocLint.Text.Lines

/-!
# Repositories

A working copy holds the data of its repository, or a file that tells where they are.  Working copies may share
a repository; what is common to them, such as the rules on what to leave out, is then in a directory of its own.
-/
namespace DocLint.Repository

open DocLint.Text

def dataName : List Char := ".git".toList

/-- What marks the directory of a working copy. -/
def markers : List (List Char) := [dataName, ".jj".toList]

def isAt (t : FileTree) (directory : Place) : Bool :=
  markers.any fun m => (t.node? (directory ++ [m])).isSome

def firstLine? (t : FileTree) (p : Path) : Option (List Char) :=
  (t.readBytes p).toOption.bind fun content => (textLines content).head?.join

/-- Where the data of a repository are, if a file tells. -/
def linked? (t : FileTree) (file : Path) : Option Path :=
  (firstLine? t file).bind fun line => (dropStart? "gitdir: ".toList line).map Path.mk

/-- The file that tells what is common to several working copies. -/
def commonFile (data : Path) : Path := data / Path.ofString "commondir"

/-- What is common to the working copies of a repository.  A path that starts with a point is seen from the
data, any other from the working directory. -/
def common? (t : FileTree) (data : Path) : Option Path :=
  (firstLine? t (commonFile data)).map fun line =>
    if line.head? = some '.' then data / Path.mk line else Path.mk line

/-- The directory that is common to all working copies of the repository in a directory. -/
def commonDirectory? (t : FileTree) (directory : Place) : Option Path :=
  let data := Place.path (directory ++ [dataName])
  if t.isFile data then (linked? t data).bind (common? t) else some data

/-- The file with rules for all working copies of the repository in a directory. -/
def excludeFile? (t : FileTree) (directory : Place) : Option Path :=
  (commonDirectory? t directory).map (· / Path.ofString "info/exclude")

end DocLint.Repository
