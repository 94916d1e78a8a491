import DocLint.Config.Source
import DocLint.RuleSet

/-!
# Why a command fails

A failure is told as a chain: what was to be done, and then the causes one below the other.
-/
namespace DocLint

inductive CommandFailure where
  | configUnreadable (path : Path) (cause : IoError)
  | configInvalid (path : Path)
  | rulesInvalid (cause : InvalidRule)
  | rootUnreadable (root : Path) (cause : IoError)
  | configExists (path : Path)
  | configUnwritable (path : Path) (cause : IoError)
  deriving DecidableEq, Repr

namespace CommandFailure

/-- What the walk over a project's files says when its root cannot be entered. -/
def walkMessage (root : Path) (cause : IoError) : String :=
  s!"{root.text}: IO error for operation on {root.text}: {cause.message}"

def chain : CommandFailure → List String
  | configUnreadable p e =>
    [s!"Failed to load config: {p.text}",
      s!"Failed to read config file {p.text}: {e.message}", e.message]
  | configInvalid p =>
    [s!"Failed to load config: {p.text}", "Failed to parse config: not a valid configuration"]
  | rulesInvalid e => ["Invalid rule configuration", e.message, e.cause.message]
  | rootUnreadable root e =>
    ["Analysis failed", s!"Walk error: {walkMessage root e}", walkMessage root e]
  | configExists p =>
    [s!"Configuration file already exists at {p.text}. Use --force to overwrite."]
  | configUnwritable p e => [s!"Failed to write {p.text}", e.message]

/-- The chain on one line. -/
def message (f : CommandFailure) : String := ": ".intercalate f.chain

/-- The causes one below the other, numbered if there are several. -/
def causeLines : List String → String
  | [] => ""
  | [cause] => "\n\nCaused by:\n    " ++ cause
  | causes =>
    "\n\nCaused by:" ++ String.join (causes.zipIdx.map fun (cause, i) => s!"\n    {i}: {cause}")

/-- The chain as it is shown when a run ends with it. -/
def report (f : CommandFailure) : String :=
  match f.chain with
  | [] => "Error: \n"
  | head :: causes => "Error: " ++ head ++ causeLines causes ++ "\n"

end CommandFailure
end DocLint
