import DocLint.Command.Footprint
import DocLint.Command.Run

/-!
# The program

Takes a picture of what the run looks at, lets the run decide, and does what it decided.
-/
namespace DocLint.Program

/-- The variables that a run reads. -/
def variableNames : List String :=
  ["HOME", "XDG_CONFIG_HOME", "GIT_CONFIG_GLOBAL", "YUIDOC_LINT_CONFIG", "YUIDOC_LINT_CONFIG_DIR",
    "RUST_LOG"]

def readEnvironment : IO Environment := do
  let values ← variableNames.mapM fun name => return (← IO.getEnv name).map fun v => (name, v)
  return ⟨values.filterMap id⟩

/-- Adds one file or directory to a tree, if it is there and can be read. -/
def look (t : FileTree) (p : Path) : IO FileTree := do
  let file := (← IO.currentDir) / p.text
  let place := Place.resolve t.workingDirectory p
  if ← file.isDir then return t.makeDirectories place
  else if ← file.pathExists then
    try return t.addFile place (← IO.FS.readBinFile file)
    catch _ => return t
  else return t

/-- Adds everything at and below a path. -/
def walk (t : FileTree) (p : Path) : IO FileTree := do
  let file := (← IO.currentDir) / p.text
  if ← file.isDir then
    (← file.walkDir).foldlM (fun t f => look t (.ofString f.toString)) (← look t p)
  else look t p

/-- Adds what the files of a tree lead to. -/
def follow (e : Environment) (t : FileTree) : IO FileTree := (Footprint.leads t e).foldlM look t

/-- The tree that a run sees.  Leads are followed twice, since what they lead to may lead further. -/
def picture (e : Environment) (working : Path) (f : Footprint) : IO FileTree := do
  let place := Place.resolve [] working
  let t ← f.walked.foldlM walk ((FileTree.mk [] place).makeDirectories place)
  let t ← f.watched.foldlM look t
  follow e (← follow e t)

def run (args : List String) : IO UInt32 := do
  let environment ← readEnvironment
  let working := Path.ofString (← IO.currentDir).toString
  let before ← picture environment working
    (Footprint.ofRequest environment working (Arguments.parse environment args))
  let result := Command.run (fun s _ => s.plainText) before environment args
  for (place, content) in before.changes result.tree do
    IO.FS.writeBinFile place.path.text content
  for l in result.notes do
    IO.eprintln l.text
  IO.print result.stdout
  IO.eprint result.stderr
  if let some failure := result.failure then
    IO.eprint failure.report
  return result.exitCode.toUInt32

end DocLint.Program

def main (args : List String) : IO UInt32 := DocLint.Program.run args
