import DocLint.Path

/-! # Environment variables -/
namespace DocLint

structure Environment where
  vars : List (String × String) := []
  deriving DecidableEq, Repr

namespace Environment

def get? (e : Environment) (name : String) : Option String := e.vars.lookup name

/-- The path that a variable holds.  An empty variable is like a missing one. -/
def path? (e : Environment) (name : String) : Option Path :=
  ((e.get? name).filter fun value => value != "").map Path.ofString

def home? (e : Environment) : Option Path := e.path? "HOME"

/-- Where programs in general look for the settings of a user. -/
def settingsDirectory? (e : Environment) : Option Path :=
  e.path? "XDG_CONFIG_HOME" <|> e.home?.map (· / Path.ofString ".config")

/-- Where the configuration of a user lives. -/
def userDirectory? (e : Environment) : Option Path :=
  match e.get? "YUIDOC_LINT_CONFIG_DIR" with
  | some dir => some (.ofString dir)
  | none => e.home?.map (· / Path.ofString ".yuidoc-lint")

end Environment
end DocLint
