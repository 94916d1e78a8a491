import DocLint.Json
import DocLint.Violation

/-!
# Reports

A report holds the violations of all files that were checked and the files that could not be.  It is written as
text for a terminal, as one line for each finding, or as JSON.
-/
namespace DocLint

/-- A file that could not be checked. -/
structure FileFailure where
  file : Path
  reason : String
  deriving DecidableEq, Repr

structure Report where
  violations : List Violation := []
  filesChecked : Nat := 0
  failures : List FileFailure := []
  deriving DecidableEq, Repr

namespace Report

def append (r s : Report) : Report :=
  ⟨r.violations ++ s.violations, r.filesChecked + s.filesChecked, r.failures ++ s.failures⟩

def concat (rs : List Report) : Report := rs.foldr append {}

/-- The report with its violations and failures in the order in which they are listed. -/
def sorted (r : Report) : Report :=
  { r with
    violations := Violation.sorted r.violations
    failures := r.failures.mergeSort fun a b => (Path.order a.file b.file).isLE }

variable (r : Report)

def count (severity : Severity) : Nat := r.violations.countP fun v => v.severity = severity

def hasErrors : Bool := r.violations.any fun v => v.severity = .error

/-- Does the run fail?  Errors and files that could not be checked make it fail, warnings do not. -/
def isFailure : Bool := r.hasErrors || !r.failures.isEmpty

/-! ## Text for a terminal -/

inductive Color where
  | red
  | yellow
  | green
  deriving DecidableEq, Repr

def Color.code : Color → String
  | .red => "\x1b[31m"
  | .yellow => "\x1b[33m"
  | .green => "\x1b[32m"

def Color.paint (c : Color) (text : String) : String := c.code ++ text ++ "\x1b[0m"

def severityLabel (s : Severity) : String :=
  match s with
  | .error => Color.red.paint s.text
  | .warning => Color.yellow.paint s.text

def summaryColor : Color :=
  if r.isFailure then .red else if r.violations.isEmpty then .green else .yellow

/-- The last line: how much was found, and in how many files. -/
def summary : String :=
  let failed := if r.failures.isEmpty then "" else s!", {r.failures.length} file(s) failed"
  r.summaryColor.paint
    (s!"Found {r.count .error} error(s), {r.count .warning} warning(s) in " ++
      s!"{r.filesChecked} file(s)" ++ failed) ++ "\n"

def violationText (v : Violation) : String :=
  let help := match v.suggestion with
    | some s => s!"  = help: {s}\n"
    | none => ""
  s!"{v.code} {v.rule} at {v.location.file.text}:{v.location.line}:{v.location.column}\n" ++
    s!"  {severityLabel v.severity}: {v.message}\n" ++ help ++ "\n"

def failureText (f : FileFailure) : String :=
  s!"{severityLabel .error} {f.file.text}: {f.reason}\n"

/-- The failures and the summary, with which the report for a terminal ends. -/
def ending : String := String.join (r.failures.map failureText) ++ r.summary

def text : String := String.join (r.violations.map violationText) ++ r.ending

/-! ## One line for each finding -/

def compact : String :=
  String.join (r.violations.map fun v => v.line ++ "\n") ++
    String.join (r.failures.map fun f => s!"{f.file.text}: error {f.reason}\n")

/-! ## JSON -/

def locationJson (l : Location) : Json :=
  .object [("file", .text l.file.text), ("line", .number l.line), ("column", .number l.column),
    ("offset", .number l.offset), ("length", .number l.length)]

/-- Arguments and suggestion are written only if there are any. -/
def violationJson (v : Violation) : Json :=
  .object <|
    [("code", .text v.code), ("rule", .text v.rule), ("severity", .text v.severity.text),
      ("location", locationJson v.location), ("message", .text v.message)] ++
    (if v.args.isEmpty then [] else [("args", .list (v.args.map .text))]) ++
    (match v.suggestion with
      | some s => [("suggestion", .object [("message", .text s)])]
      | none => [])

def failureJson (f : FileFailure) : Json :=
  .object [("file", .text f.file.text), ("reason", .text f.reason)]

/-- Failures are written only if there are any. -/
def toJson : Json :=
  .object <|
    [("files_checked", .number r.filesChecked), ("errors", .number (r.count .error)),
      ("warnings", .number (r.count .warning)),
      ("violations", .list (r.violations.map violationJson))] ++
    if r.failures.isEmpty then [] else [("failures", .list (r.failures.map failureJson))]

def json : String := String.ofList (r.toJson.render 0)

end Report

/-! ## Snippets -/

/-- A violation as it is shown over the text of its file: the headline, a hint, and the span with its label.  The
file is named unless the span reaches beyond the place right after the end of the text. -/
structure Snippet where
  headline : String
  help : Option String
  label : String
  offset : Nat
  length : Nat
  fileName : Option String
  deriving DecidableEq, Repr

def Violation.snippet (v : Violation) (source : String) : Snippet where
  headline := s!"[{v.code}] {v.message}"
  help := v.suggestion
  label := v.rule
  offset := v.location.offset
  length := v.location.length
  fileName :=
    if v.location.offset + v.location.length ≤ Text.byteLength source.toList + 1 then
      some v.location.file.text
    else none

/-- A snippet without the text around it: the headline, the span with its label, and the hint. -/
def Snippet.plainText (s : Snippet) : String :=
  let place := match s.fileName with
    | some name => s!" in {name}"
    | none => ""
  let help := match s.help with
    | some h => s!"  help: {h}\n"
    | none => ""
  s!"{s.headline}\n  {s.label} at bytes {s.offset} to {s.offset + s.length}{place}\n" ++ help

end DocLint
