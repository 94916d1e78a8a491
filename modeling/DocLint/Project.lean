import DocLint.Analysis
import DocLint.FileTree
import DocLint.Glob
import DocLint.Ignore.UserFile
import DocLint.Report
import DocLint.Repository

/-!
# Projects

A project is a root, a configuration, rules, and patterns of paths to leave out.  Its files are those at or below
the root that are written in one of its languages and that no ignore file and no pattern excludes.  A file that
cannot be read is a failure of its own and does not stop the others.
-/
namespace DocLint

open DocLint.Text

structure Project where
  tree : FileTree
  root : Path
  config : Config
  rules : RuleSet
  exclude : List String
  /-- The rules of the user's ignore file, for paths as seen from the working directory. -/
  userRules : List Ignore.Rule := []
  languages : List Language := [.javaScript]

namespace Project

/-- The project at a path, which is seen from the working directory. -/
def atPath (tree : FileTree) (environment : Environment) (path : Path) (config : Config)
    (rules : RuleSet) (exclude : List String) : Project :=
  { tree, config, rules
    root := tree.workingPath / path
    exclude := exclude ++ config.analyzer.exclude
    userRules := Ignore.UserFile.rules tree environment }

variable (p : Project)

/-- The language of a file: the first that handles it. -/
def language? (path : Path) : Option Language := p.languages.find? fun l => l.handles path

/-! ## Reported paths -/

/-- A file as it is reported: as seen from the root, or by its name if it is the root itself. -/
def relative (path : Path) : Path :=
  match Path.below? p.root path with
  | some rest =>
    if rest.chars = [] then (path.fileName?.map Path.mk).getD path else rest
  | none => path

/-- The file that a reported path stands for. -/
def sourcePath (reported : Path) : Path :=
  if p.tree.isFile p.root then p.root else p.root / reported

/-! ## Discovery -/

/-- Is there a repository in a directory?  Above the root it counts only if its ignore files do. -/
def hasRepository (isAbove : Bool) (directory : Place) : Bool :=
  (!isAbove || p.config.analyzer.respectGitignore) && Repository.isAt p.tree directory

/-- The rules of an ignore file, if it is there. -/
def ignoreRules (file : Path) : List Ignore.Rule :=
  match p.tree.readBytes file with
  | .ok content => Ignore.rulesOf content
  | .error _ => []

/-- The path of a place below the root. -/
def pathBelow (root place : Place) : Path :=
  (place.drop root.length).foldl (fun path name => path / ⟨name⟩) p.root

/-- A path as the user's ignore file sees it. -/
def fromWorkingDirectory (path : Path) : List Char :=
  match dropStart? p.tree.workingPath.chars path.chars with
  | some rest => (dropStart? ['/'] rest).getD rest
  | none => path.chars

/-- A directory in which ignore files are looked for. -/
structure Level where
  directory : Place
  hasRepository : Bool
  deriving DecidableEq, Repr

/-- The directories above an entry, the nearest first; `root` is the place of the project's root. -/
def levels (root entry : Place) : List Level :=
  (List.range entry.length).reverse.map fun n =>
    ⟨entry.take n, p.hasRepository (n < root.length) (entry.take n)⟩

/-- The levels up to the first with a repository, that one included. -/
def withinRepository : List Level → List Level
  | [] => []
  | l :: ls => if l.hasRepository then [l] else l :: withinRepository ls

/-- What the ignore files of one sort say about an entry: the nearest one that says anything.  `file?` tells
where the file for a directory is. -/
def decisionBy (file? : Place → Option Path) (entry : Place) (isDirectory : Bool)
    (ls : List Level) : Option Ignore.Decision :=
  ls.findSome? fun l =>
    (file? l.directory).bind fun file =>
      Ignore.decide? (p.ignoreRules file) (joinWith ['/'] (entry.drop l.directory.length)) isDirectory

/-- A file of a certain name in a directory. -/
def fileNamed (name : String) (directory : Place) : Option Path :=
  some (Place.path (directory ++ [name.toList]))

/-- Is an entry ignored?  Ignore files of a repository, and that of the user, count only inside of one. -/
def isIgnored (root entry : Place) (isDirectory : Bool) : Bool :=
  let all := p.levels root entry
  let inside := all.any Level.hasRepository
  let repository := if inside then withinRepository all else []
  let decision :=
    p.decisionBy (fileNamed ".ignore") entry isDirectory all <|>
      (if p.config.analyzer.respectGitignore then
        p.decisionBy (fileNamed ".gitignore") entry isDirectory repository
       else none) <|>
      p.decisionBy (Repository.excludeFile? p.tree) entry isDirectory repository <|>
      (if inside then
        Ignore.decide? p.userRules (p.fromWorkingDirectory (p.pathBelow root entry)) isDirectory
       else none)
  decision = some .ignore

/-- Is a file below the root reached, that is, are neither it nor the directories that lead to it ignored? -/
def isReached (root file : Place) : Bool :=
  (List.range file.length).all fun n =>
    n < root.length || !p.isIgnored root (file.take (n + 1)) (n + 1 < file.length)

/-- Do the patterns exclude a file? -/
def isExcluded (path : Path) : Bool :=
  p.exclude.any fun pattern => Glob.excludes pattern.toList path.chars

/-- The files at or below the root, in the order of their paths. -/
def files : Except IoError (List Path) := do
  let root ← p.tree.locate p.root
  let reached ← match p.tree.node? root with
    | some (.file _) => .ok [p.root]
    | some .directory =>
      .ok (p.tree.nodes.filterMap fun e =>
        match e with
        | (place, .file _) =>
          if root.isPrefixOf place && p.isReached root place then some (p.pathBelow root place)
          else none
        | (_, .directory) => none)
    | none => .error .notFound
  let kept := reached.filter fun path => (p.language? path).isSome && !p.isExcluded path
  .ok (kept.mergeSort fun a b => (Path.order a b).isLE)

/-! ## Analysis -/

/-- Why a file cannot be analysed. -/
inductive FileError where
  | unsupported (path : Path)
  | unreadable (cause : IoError)
  | unexpected (path : Path) (cause : UnexpectedInput)
  deriving DecidableEq, Repr

def FileError.message : FileError → String
  | .unsupported path => s!"No tokenizer registered for {path.text}"
  | .unreadable cause => s!"IO error: {cause.message}"
  | .unexpected path cause => s!"Tokenize error in {path.text}: {cause.message}"

/-- The violations of a text in a language, reported for a path. -/
def analyzeText (l : Language) (reported : Path) (source : List Char) :
    Except FileError (List Violation) :=
  (analyzeSource l p.config p.rules reported source).mapError (.unexpected reported)

/-- The violations of one file. -/
def analyzeFile (path : Path) : Except FileError (List Violation) :=
  match p.language? path, p.tree.readText path with
  | none, _ => .error (.unsupported path)
  | some _, .error e => .error (.unreadable e)
  | some l, .ok source => p.analyzeText l (p.relative path) source.toList

/-- A report on one file. -/
def reportFile (path : Path) : Report :=
  match p.analyzeFile path with
  | .ok violations => { violations, filesChecked := 1 }
  | .error e => { failures := [⟨p.relative path, e.message⟩] }

/-- The report on some files. -/
def analyzeFiles (paths : List Path) : Report := Report.sorted (.concat (paths.map p.reportFile))

end Project
end DocLint
