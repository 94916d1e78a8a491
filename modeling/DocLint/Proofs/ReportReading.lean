import DocLint.Proofs.JsonReading
import DocLint.Report

/-!
# Reading reports

A report in JSON is read field by field, by the names of the fields.  Arguments, a suggestion and failures may be
missing.  Whatever characters its texts and paths hold, a report is read back as it was, together with the numbers of
its errors and warnings.
-/
namespace DocLint

namespace Json

def text? : Json → Option String
  | .text s => some s
  | _ => none

def number? : Json → Option Nat
  | .number n => some n
  | _ => none

/-- A list of values that are read one by one. -/
def list? {α : Type} (read : Json → Option α) : Json → Option (List α)
  | .list xs => xs.mapM read
  | _ => none

def field? (key : String) : Json → Option Json
  | .object fields => fields.lookup key
  | _ => none

/-- A field that has to be there. -/
def get? {α : Type} (read : Json → Option α) (key : String) (j : Json) : Option α := (j.field? key).bind read

/-- A field that may be missing, and what it stands for then. -/
def getOr? {α : Type} (read : Json → Option α) (key : String) (missing : α) (j : Json) : Option α :=
  match j.field? key with
  | some value => read value
  | none => some missing

@[simp] theorem field?_nil (key : String) : (object []).field? key = none := rfl

@[simp] theorem field?_cons (key name : String) (value : Json) (fields : List (String × Json)) :
    (object ((name, value) :: fields)).field? key = if key = name then some value else (object fields).field? key := by
  by_cases h : key = name
  · simp [field?, h]
  · have hb : (key == name) = false := beq_false_of_ne h
    simp [field?, List.lookup_cons, hb, h]

@[simp] theorem text?_text (s : String) : (text s).text? = some s := rfl

@[simp] theorem number?_number (n : Nat) : (number n).number? = some n := rfl

end Json

namespace Report

def location? (j : Json) : Option Location := do
  let file ← j.get? Json.text? "file"
  let line ← j.get? Json.number? "line"
  let column ← j.get? Json.number? "column"
  let offset ← j.get? Json.number? "offset"
  let length ← j.get? Json.number? "length"
  some { file := .ofString file, line, column, offset, length }

def violation? (j : Json) : Option Violation := do
  let code ← j.get? Json.text? "code"
  let rule ← j.get? Json.text? "rule"
  let severity ← (← j.get? Json.text? "severity") |> Severity.ofText?
  let location ← j.get? location? "location"
  let message ← j.get? Json.text? "message"
  let args ← j.getOr? (Json.list? Json.text?) "args" []
  let suggestion ← j.getOr? (fun s => (s.get? Json.text? "message").map some) "suggestion" none
  some { code, rule, severity, location, message, args, suggestion }

def failure? (j : Json) : Option FileFailure := do
  let file ← j.get? Json.text? "file"
  let reason ← j.get? Json.text? "reason"
  some { file := .ofString file, reason }

/-- A report as it is read, with the numbers that stand beside it. -/
structure Reading where
  report : Report
  errors : Nat
  warnings : Nat
  deriving DecidableEq, Repr

def reading? (j : Json) : Option Reading := do
  let filesChecked ← j.get? Json.number? "files_checked"
  let errors ← j.get? Json.number? "errors"
  let warnings ← j.get? Json.number? "warnings"
  let violations ← j.get? (Json.list? violation?) "violations"
  let failures ← j.getOr? (Json.list? failure?) "failures" []
  some { report := { violations, filesChecked, failures }, errors, warnings }

/-- The reading of a text in JSON. -/
def read? (text : String) : Option Reading := (Json.read? text.toList).bind reading?

/-! ## Parts of a report -/

theorem list?_map {α : Type} {read : Json → Option α} {write : α → Json} (h : ∀ x, read (write x) = some x)
    (xs : List α) : Json.list? read (.list (xs.map write)) = some xs := by
  rw [Json.list?]
  induction xs with
  | nil => rfl
  | cons x xs ih => simp [h x, ih]

theorem ofString_text (p : Path) : Path.ofString p.text = p := by
  simp [Path.ofString, Path.text]

theorem ofText?_text (s : Severity) : Severity.ofText? s.text = some s := by
  cases s <;> rfl

theorem location?_locationJson (l : Location) : location? (locationJson l) = some l := by
  simp [location?, locationJson, Json.get?, ofString_text]

theorem failure?_failureJson (f : FileFailure) : failure? (failureJson f) = some f := by
  simp [failure?, failureJson, Json.get?, ofString_text]

theorem violation?_violationJson (v : Violation) : violation? (violationJson v) = some v := by
  obtain ⟨code, rule, severity, location, message, args, suggestion⟩ := v
  have hargs : Json.list? Json.text? (.list (args.map .text)) = some args := list?_map Json.text?_text args
  -- The two optional fields may be there or not, each on its own.
  cases args <;> cases suggestion <;>
    simp_all [violation?, violationJson, Json.get?, Json.getOr?, ofText?_text, location?_locationJson]

theorem reading?_toJson (r : Report) : reading? r.toJson = some ⟨r, r.count .error, r.count .warning⟩ := by
  obtain ⟨violations, filesChecked, failures⟩ := r
  have hviolations := list?_map violation?_violationJson violations
  have hfailures := list?_map failure?_failureJson failures
  cases failures <;> simp_all [reading?, toJson, Json.get?, Json.getOr?]

/-- Every violation is an error or a warning. -/
theorem count_error_add_count_warning (r : Report) : r.count .error + r.count .warning = r.violations.length := by
  have hwarning : (fun v : Violation => decide (v.severity = .warning)) = fun v => !decide (v.severity = .error) := by
    funext v
    cases v.severity <;> rfl
  rw [count, count, hwarning, List.length_eq_countP_add_countP fun v : Violation => decide (v.severity = .error)]
  simp

/-- The report in JSON is read back as the report it was, with its violations and failures in their order, and the
two numbers beside it are those of its errors and of its warnings. -/
theorem read?_json (r : Report) :
    ∃ reading, read? r.json = some reading ∧ reading.report = r ∧
      reading.errors = (r.violations.filter fun v => v.severity = .error).length ∧
      reading.warnings = (r.violations.filter fun v => v.severity = .warning).length ∧
      reading.errors + reading.warnings = r.violations.length := by
  refine ⟨⟨r, r.count .error, r.count .warning⟩, ?_, rfl, List.countP_eq_length_filter, List.countP_eq_length_filter,
    r.count_error_add_count_warning⟩
  rw [read?, json, String.toList_ofList, Json.read?_render]
  exact reading?_toJson r

end Report
end DocLint
