import DocLint.Config
import DocLint.Toml.Document

/-!
# Reading a configuration

A configuration is a TOML table.  Keys that mean nothing are passed over; a value of the wrong type is refused.
A record may also be given as an array of its fields in order, where those missing at the end have their
defaults.
-/
namespace DocLint.Config

open DocLint.Toml (Value)

def bool? : Value → Option Bool
  | .boolean b => some b
  | _ => none

def text? : Value → Option String
  | .string s => some s
  | _ => none

def nat? : Value → Option Nat
  | .integer (.ofNat n) => some n
  | _ => none

def items? : Value → Option (List Value)
  | .array vs | .tables vs => some vs
  | _ => none

def list? {α : Type} (item : Value → Option α) (v : Value) : Option (List α) := do
  (← items? v).mapM item

/-- The values of a record's fields, as far as they are given.  A date is a record without known fields. -/
def fields? (names : List String) : Value → Option (List (Option Value))
  | .table _ es => some (names.map fun name => es.lookup name)
  | .array vs | .tables vs => some (names.zipIdx.map fun (_, i) => vs[i]?)
  | .datetime _ => some (names.map fun _ => none)
  | _ => none

/-- A field that has a default. -/
def field {α : Type} (read : Value → Option α) (default : α) : Option Value → Option α
  | none => some default
  | some v => read v

/-- A field that may be missing. -/
def optional {α : Type} (read : Value → Option α) : Option Value → Option (Option α)
  | none => some none
  | some v => (read v).map some

/-- A severity by its word, or as a table with the word as its only key and nothing below. -/
def severityOf? : Value → Option Severity
  | .string s => Severity.ofText? s
  | .table _ [(key, .table _ [])] | .table _ [(key, .array [])] | .table _ [(key, .tables [])] =>
    Severity.ofText? key
  | _ => none

def analyzer? (v : Value) : Option AnalyzerConfig := do
  match ← fields? ["root", "exclude", "respect_gitignore", "parallelism"] v with
  | [root, exclude, respect, parallelism] =>
    return {
      root := ← field (fun v => (text? v).map Path.ofString) ⟨['.']⟩ root
      exclude := ← field (list? text?) [] exclude
      respectGitignore := ← field bool? true respect
      parallelism := ← optional nat? parallelism }
  | _ => none

def checks? (v : Value) : Option ChecksConfig := do
  match ← fields? ["block_spacing", "header_spacing", "param_count", "require_module"] v with
  | [block, header, params, module] =>
    return {
      blockSpacing := ← field bool? true block
      headerSpacing := ← field bool? true header
      paramCount := ← field bool? true params
      requireModule := ← field bool? true module }
  | _ => none

def tagOptions? (v : Value) : Option TagOptions := do
  match ← fields? ["required", "rivaling", "relevant", "rivaling_mandatory", "anchor"] v with
  | [required, rivaling, relevant, mandatory, anchor] =>
    return {
      required := ← field (list? text?) [] required
      rivaling := ← field (list? (list? text?)) [] rivaling
      relevant := ← field (list? text?) [] relevant
      rivalingMandatory := ← field bool? false mandatory
      anchor := ← optional text? anchor }
  | _ => none

def tags? (v : Value) : Option TagsConfig := do
  match ← fields? ["class", "function", "block"] v with
  | [classHeader, functionHeader, anyBlock] =>
    return {
      classHeader := ← optional tagOptions? classHeader
      functionHeader := ← optional tagOptions? functionHeader
      anyBlock := ← optional tagOptions? anyBlock }
  | _ => none

def ruleConfig? (v : Value) : Option RuleConfig := do
  match ← fields? ["enabled", "severity"] v with
  | [enabled, severity] =>
    return { enabled := ← optional bool? enabled, severity := ← optional severityOf? severity }
  | _ => none

def rules? : Value → Option (List (String × RuleConfig))
  | .table _ es => es.mapM fun (name, v) => (ruleConfig? v).map fun r => (name, r)
  | _ => none

def ofValue? (v : Value) : Option Config := do
  match ← fields? ["analyzer", "checks", "tags", "rules"] v with
  | [analyzer, checks, tags, rules] =>
    return {
      analyzer := ← field analyzer? {} analyzer
      checks := ← field checks? {} checks
      tags := ← field tags? {} tags
      rules := ← field rules? [] rules }
  | _ => none

/-- The configuration that a text describes. -/
def parse? (text : List Char) : Option Config := Toml.parse? text >>= ofValue?

end DocLint.Config
