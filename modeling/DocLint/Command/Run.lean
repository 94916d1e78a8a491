import DocLint.Command.Arguments
import DocLint.Command.Init
import DocLint.Command.ListRules

/-!
# A run of the program

Arguments, environment and file tree determine everything that a run does: what it prints, what it notes, how it
ends, and the tree it leaves behind.
-/
namespace DocLint

structure RunResult where
  exitCode : Nat := 0
  stdout : String := ""
  stderr : String := ""
  /-- Notes, those only that are shown. -/
  notes : List LogLine := []
  failure : Option CommandFailure := none
  tree : FileTree

namespace RunResult

/-- A run that ends with a failure. -/
def failed (t : FileTree) (notes : List LogLine) (f : CommandFailure) : RunResult :=
  { exitCode := 1, notes, failure := some f, tree := t }

end RunResult

namespace Command

-- How a snippet is drawn over the text of its file is left open.
variable (draw : Snippet → String → String)

/-- A violation over the text of its file, or in one line if that text cannot be read any more. -/
def shown (p : Project) (v : Violation) : String :=
  match p.tree.readText (p.sourcePath v.location.file) with
  | .ok source => draw (v.snippet source) source ++ "\n"
  | .error _ => v.line ++ "\n"

/-- What goes to the standard output for the report on a project, and what to the standard error. -/
def printed (p : Project) (r : Report) : Format → String × String
  | .text => (r.text, "")
  | .json => (r.json ++ "\n", "")
  | .compact => (r.compact, "")
  | .rich => ("", String.join (r.violations.map (shown draw p)) ++ r.ending)

def runCheck (t : FileTree) (e : Environment) (shown : List LogFilter.Directive)
    (config : Option Path) (path : Path) (format : Format) (rules : Option String)
    (exclude : List String) : RunResult :=
  let outcome : Check.Noted (Project × Report) := do
    let config ← Check.loadConfig t (ConfigSource.resolve t e.userDirectory? config path)
    Check.execute t e path config rules exclude
  let notes := outcome.notes.filter (LogFilter.shows shown)
  match outcome.value with
  | .error f => .failed t notes f
  | .ok (project, report) =>
    let (stdout, stderr) := printed draw project report format
    { exitCode := if report.isFailure then 1 else 0, stdout, stderr, notes, tree := t }

def runInit (t : FileTree) (force : Bool) : RunResult :=
  match Init.writeConfig t ⟨['.']⟩ force with
  | .ok (t, _) => { stdout := Init.nextSteps, tree := t }
  | .error f => .failed t [] f

/-- A run of the program with some arguments. -/
def run (t : FileTree) (e : Environment) (args : List String) : RunResult :=
  match Arguments.parse e args with
  | .help => { stdout := Arguments.helpText, tree := t }
  | .version => { stdout := Arguments.versionText, tree := t }
  | .usageError => { exitCode := 2, stderr := Arguments.usageText, tree := t }
  | .run i =>
    match i.command with
    | .listRules => { stdout := ListRules.text, tree := t }
    | .init force => runInit t force
    | .check path format rules exclude =>
      runCheck draw t e (LogFilter.choose i.verbose (e.get? "RUST_LOG")) i.config path format rules
        exclude

end Command
end DocLint
