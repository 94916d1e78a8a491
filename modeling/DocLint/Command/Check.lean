import DocLint.Command.Failure
import DocLint.Config.Decode
import DocLint.Log
import DocLint.Project
import DocLint.Text.Quoted

/-!
# Checking a project

The configuration is found and read, the rules are built and, if the user asks for some of them, selected, and the
project is analysed.  Each step may note something, and may fail.
-/
namespace DocLint.Check

open DocLint.Text

/-- A value with the notes that were made on the way to it. -/
structure Noted (α : Type) where
  notes : List LogLine
  value : Except CommandFailure α

namespace Noted

def pure {α : Type} (a : α) : Noted α := ⟨[], .ok a⟩

/-- Goes on after a step, unless it failed. -/
def bind {α β : Type} (x : Noted α) (f : α → Noted β) : Noted β :=
  match x.value with
  | .ok a => ⟨x.notes ++ (f a).notes, (f a).value⟩
  | .error e => ⟨x.notes, .error e⟩

instance : Monad Noted where
  pure := pure
  bind := bind

def note (level : LogLevel) (target : LogTarget) (message : String) : Noted Unit :=
  ⟨[⟨level, target, message⟩], .ok ()⟩

def ofExcept {α ε : Type} (failure : ε → CommandFailure) : Except ε α → Noted α
  | .ok a => ⟨[], .ok a⟩
  | .error e => ⟨[], .error (failure e)⟩

end Noted

/-- The configuration in a file. -/
def readConfig (t : FileTree) (p : Path) : Except CommandFailure Config :=
  match t.readText p with
  | .error e => .error (.configUnreadable p e)
  | .ok text =>
    match Config.parse? text.toList with
    | some c => .ok c
    | none => .error (.configInvalid p)

/-- The configuration from a source. -/
def loadConfig (t : FileTree) (source : ConfigSource) : Noted Config := do
  match source with
  | .default => return {}
  | .user p =>
    Noted.note .info .command s!"Using user config: {p.text}"
    Noted.ofExcept id (readConfig t p)
  | .explicit p | .project p => Noted.ofExcept id (readConfig t p)

/-- The rules that a filter names: what stands between its commas, without blanks around it. -/
def selection (filter : String) : List String :=
  ((splitOn ',' filter.toList).map trim).filter (fun s => !s.isEmpty) |>.map String.ofList

/-- Every rule that can be named, with the report on unclosed comments. -/
def knownRules : List RuleInfo :=
  unclosedInfo ::
    match RuleSet.every with
    | .ok rules => rules.infos
    | .error _ => []

def isKnown (name : String) : Bool := knownRules.any fun r => r.selectedBy [name]

/-- The configuration and rules of a run that is limited to some rules.  Unclosed comments are reported only if
they are among them. -/
def limit (selected : List String) (c : Config) (rules : RuleSet) : Config × RuleSet :=
  (if unclosedInfo.selectedBy selected then c
    else c.setRule unclosedInfo.name { enabled := some false },
    rules.select selected)

/-- The names that belong to no rule, as notes. -/
def unknownNotes (selected : List String) : List LogLine :=
  (selected.filter fun s => !isKnown s).map fun s => ⟨.warn, .command, s!"Unknown rule: {s}"⟩

/-- The configuration and rules of a run, limited by a filter if there is one. -/
def limitBy (filter : Option String) (c : Config) (rules : RuleSet) : Noted (Config × RuleSet) :=
  match filter with
  | none => ⟨[], .ok (c, rules)⟩
  | some filter => ⟨unknownNotes (selection filter), .ok (limit (selection filter) c rules)⟩

/-- The files that a project could not check, as notes. -/
def failureNotes (p : Project) (paths : List Path) : List LogLine :=
  paths.filterMap fun path =>
    match p.analyzeFile path with
    | .ok _ => none
    | .error e => some ⟨.warn, .analyzer, s!"Failed to analyze {path.text}: {e.message}"⟩

/-- The report on a project, with notes. -/
def analyze (p : Project) : Noted Report := do
  Noted.note .info .analyzer s!"Starting analysis at {String.ofList (quoted p.root.chars)}"
  let files ← Noted.ofExcept (CommandFailure.rootUnreadable p.root) p.files
  Noted.note .info .analyzer s!"Found {files.length} files to analyze"
  let report := p.analyzeFiles files
  Noted.mk (failureNotes p files) (.ok ())
  Noted.note .info .analyzer
    s!"Analysis complete: {report.violations.length} violations in {report.filesChecked} files"
  return report

/-- The project that a run checks, and the report on it. -/
def execute (t : FileTree) (e : Environment) (path : Path) (config : Config)
    (filter : Option String) (exclude : List String) : Noted (Project × Report) := do
  let rules ← Noted.ofExcept CommandFailure.rulesInvalid (RuleSet.ofConfig config)
  let (config, rules) ← limitBy filter config rules
  let project := Project.atPath t e path config rules exclude
  Noted.note .info .command
    s!"Analyzing {String.ofList (quoted path.chars)} with {rules.size} rules"
  let report ← analyze project
  return (project, report)

end DocLint.Check
