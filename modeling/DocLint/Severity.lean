/-! # Severities -/
namespace DocLint

inductive Severity where
  | error
  | warning
  deriving DecidableEq, Repr, Inhabited

/-- The word by which a severity is read and written. -/
def Severity.text : Severity → String
  | .error => "error"
  | .warning => "warning"

def Severity.ofText? : String → Option Severity
  | "error" => some .error
  | "warning" => some .warning
  | _ => none

end DocLint
