import DocLint.Message
import DocLint.Path
import DocLint.Severity
import DocLint.Token

/-!
# Violations

A violation says which rule found what, and where.  Violations are listed by file, line, column, code and
message; those that agree in all five keep the order in which they were found.
-/
namespace DocLint

structure Location where
  file : Path
  line : Nat
  column : Nat
  offset : Nat
  length : Nat
  deriving DecidableEq, Repr, Inhabited

/-- The place of a token in a file; without a token, the beginning of the file. -/
def Location.ofToken? (file : Path) : Option Token → Location
  | some t =>
    ⟨file, t.start.line, t.start.column, t.start.offset, Text.byteLength t.text.toList⟩
  | none => ⟨file, 1, 1, 0, 0⟩

structure Violation where
  code : String
  rule : String
  severity : Severity
  location : Location
  message : String
  args : List String := []
  suggestion : Option String := none
  deriving DecidableEq, Repr, Inhabited

namespace Violation

/-- One line: place, severity, code and message. -/
def line (v : Violation) : String :=
  s!"{v.location.file.text}:{v.location.line}:{v.location.column}: {v.severity.text} " ++
    s!"[{v.code}] {v.message}"

/-- The order in which violations are listed. -/
def order : Violation → Violation → Ordering :=
  compareLex (fun a b => Path.order a.location.file b.location.file) <|
  compareLex (compareOn (·.location.line)) <|
  compareLex (compareOn (·.location.column)) <|
  compareLex (compareOn (·.code)) (compareOn (·.message))

def sorted (vs : List Violation) : List Violation := vs.mergeSort fun a b => (order a b).isLE

end Violation
end DocLint
