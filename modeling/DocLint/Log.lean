import DocLint.Text
import DocLint.Text.Alphanumeric
import DocLint.Text.Blank
import DocLint.Text.Expression

/-!
# Logs

A run notes what it does.  Which notes are shown is set by a list of directives, each a level for every note or for
the notes of a target; of the directives that concern a note, the most specific one decides.
-/
namespace DocLint

open DocLint.Text

inductive LogLevel where
  | error
  | warn
  | info
  | debug
  | trace
  deriving DecidableEq, Repr

namespace LogLevel

def text : LogLevel → String
  | error => "ERROR"
  | warn => "WARN"
  | info => "INFO"
  | debug => "DEBUG"
  | trace => "TRACE"

/-- The least threshold at which a level is shown; at zero nothing is. -/
def rank : LogLevel → Nat
  | error => 1
  | warn => 2
  | info => 3
  | debug => 4
  | trace => 5

end LogLevel

/-- The part of the program that a note comes from. -/
inductive LogTarget where
  | command
  | analyzer
  deriving DecidableEq, Repr

def LogTarget.text : LogTarget → String
  | .command => "yuidoc_lint::commands::check"
  | .analyzer => "yuidoc_lint_core::analyzer"

structure LogLine where
  level : LogLevel
  target : LogTarget
  message : String
  deriving DecidableEq, Repr

/-- The characters by which a text can steer a terminal, apart from blanks. -/
def isSteering (c : Char) : Bool :=
  [0x07, 0x08, 0x0C, 0x1B, 0x7F].contains c.toNat || (0x80 ≤ c.toNat && c.toNat ≤ 0x9F)

/-- A character of a note.  Those that steer a terminal are written by their code points. -/
def notedChar (c : Char) : List Char :=
  if !isSteering c then [c]
  else if c.toNat < 0x10 then "\\x0".toList ++ Nat.toDigits 16 c.toNat
  else if c.toNat < 0x80 then "\\x".toList ++ Nat.toDigits 16 c.toNat
  else "\\u\x7b".toList ++ Nat.toDigits 16 c.toNat ++ ['\x7d']

/-- A note as it is shown. -/
def LogLine.text (l : LogLine) : String :=
  l.level.text ++ " " ++ String.ofList (l.message.toList.flatMap notedChar)

namespace LogFilter

/-- A threshold for the notes whose target starts in a certain way and that have all of some fields. -/
structure Directive where
  target : Option (List Char) := none
  fields : List (List Char) := []
  threshold : Nat := LogLevel.trace.rank
  deriving DecidableEq, Repr

/-- A number with an optional plus sign. -/
def number? (text : List Char) : Option Nat :=
  let digits := (dropStart? ['+'] text).getD text
  if digits.isEmpty || !digits.all Char.isDigit then none
  else some (digits.foldl (fun n c => 10 * n + (c.toNat - '0'.toNat)) 0)

/-- A threshold by its number or its word, in capitals or not. -/
def threshold? (text : List Char) : Option Nat :=
  match number? text with
  | some n => if n ≤ LogLevel.trace.rank then some n else none
  | none =>
    match String.ofList (text.map Char.toLower) with
    | "off" => some 0
    | "error" => some LogLevel.error.rank
    | "warn" => some LogLevel.warn.rank
    | "info" => some LogLevel.info.rank
    | "debug" => some LogLevel.debug.rank
    | "trace" => some LogLevel.trace.rank
    | _ => none

/-! ## Reading

A directive is a threshold, or a target, maybe followed by a span in brackets, maybe followed by an equals sign and
a threshold.  A span has a name, a field in braces, or both, and a field may have a value.  The blanks around a
directive are passed over when its marks are looked for, but what lies between two marks is cut out of the whole
text by their numbers. -/

/-- How far a directive was read; numbers tell where the part at hand begins. -/
inductive Reading where
  | start
  | target
  | spanName (first : Nat)
  | spanField (first : Nat)
  | afterField
  | afterSpan
  | level (first : Nat)
  deriving DecidableEq, Repr

/-- What was read of a directive.  Only the presence of a name or a value counts, since notes stand in no span. -/
structure Draft where
  reading : Reading := .start
  target : Option (List Char) := none
  field : Option (List Char) := none
  isForSpans : Bool := false
  deriving DecidableEq, Repr

/-- The end of a decimal number: nothing, or an exponent. -/
def isExponent : List Char → Bool
  | [] => true
  | e :: '-' :: digits => e.toLower = 'e' && !digits.isEmpty && digits.all Char.isDigit
  | e :: digits => e.toLower = 'e' && (number? digits).isSome

/-- A decimal number, maybe with a fraction and an exponent. -/
def isDecimal (text : List Char) : Bool :=
  let whole := text.takeWhile Char.isDigit
  match text.drop whole.length with
  | '.' :: rest =>
    let fraction := rest.takeWhile Char.isDigit
    !(whole ++ fraction).isEmpty && isExponent (rest.drop fraction.length)
  | rest => !whole.isEmpty && isExponent rest

/-- A number with a plus sign before it; infinite and undefined ones are written out. -/
def isPositive (text : List Char) : Bool :=
  match text with
  | '+' :: cs =>
    ["inf", "infinity", "nan"].contains (String.ofList (cs.map Char.toLower)) || isDecimal cs
  | _ => false

/-- Can the value of a field be asked for?  It is a number or a regular expression. -/
def isFieldValue (text : List Char) : Bool := isPositive text || Expression.isValid text

/-- What lies between two places of a text. -/
def between (text : List Char) (first last : Nat) : List Char := (text.take last).drop first

def isTargetStart (c : Char) : Bool := isAlphanumeric c || c = '-' || c = ':' || c = '_'

/-- The next character of a directive, at a place. -/
def Draft.next? (text : List Char) (d : Draft) (c : Char) (i : Nat) : Option Draft :=
  match d.reading, c with
  | .start, '[' => some { d with reading := .spanName (i + 1) }
  | .start, c => if isTargetStart c then some { d with reading := .target } else none
  | .target, '=' => some { d with reading := .level (i + 1), target := some (between text 0 i) }
  | .target, '[' => some { d with reading := .spanName (i + 1), target := some (between text 0 i) }
  | .target, _ => some d
  | .spanName _, ']' => some { d with reading := .afterSpan, isForSpans := true }
  | .spanName first, '\x7b' =>
    some { d with reading := .spanField (i + 1), isForSpans := decide (first < i) }
  | .spanName _, _ => some d
  | .spanField first, '\x7d' =>
    match splitOn '=' (between text first i) with
    | [name] =>
      if first = i then none else some { d with reading := .afterField, field := some name }
    | _ :: value :: _ =>
      if isFieldValue value then some { d with reading := .afterField, isForSpans := true } else none
    | [] => none
  | .spanField _, _ => some d
  | .afterField, ']' => some { d with reading := .afterSpan }
  | .afterField, _ => none
  | .afterSpan, '=' => some { d with reading := .level (i + 1) }
  | .afterSpan, _ => none
  | .level _, _ => some d

/-- The directive that a draft amounts to at the end of its text.  A target alone shows everything, and a directive
for spans concerns no note. -/
def Draft.finish? (text : List Char) (d : Draft) : Option (List Directive) :=
  let directive (threshold : Nat) : List Directive :=
    if d.isForSpans then [] else [⟨d.target, d.field.toList, threshold⟩]
  match d.reading with
  | .target =>
    match threshold? text with
    | some n => some [⟨none, [], n⟩]
    | none => some [⟨some text, [], LogLevel.trace.rank⟩]
  | .level first =>
    match text.drop first with
    | [] => some (directive LogLevel.trace.rank)
    | level => (threshold? level).map directive
  | .afterSpan => some (directive LogLevel.trace.rank)
  | _ => none

def directive? (text : List Char) : Option (List Directive) := do
  let draft ← (trim text).zipIdx.foldlM (fun d (c, i) => d.next? text c i) ({} : Draft)
  draft.finish? text

/-- The directives of a text, between commas; those with fields count after the others.  Without any, only errors
are shown. -/
def parse? (text : List Char) : Option (List Directive) := do
  match (splitOn ',' text).filter (fun part => !part.isEmpty) with
  | [] => some [{ threshold := LogLevel.error.rank }]
  | parts =>
    let ds := (← parts.mapM directive?).flatten
    some (ds.filter (·.fields.isEmpty) ++ ds.filter (!·.fields.isEmpty))

/-! ## Filtering -/

/-- The fields of every note. -/
def noteFields : List (List Char) := ["message".toList]

def Directive.concerns (d : Directive) (target : List Char) : Bool :=
  (d.target.all fun start => start.isPrefixOf target) && d.fields.all noteFields.contains

/-- Does a directive describe its notes at least as closely as another?  A longer target counts most. -/
def Directive.isAsSpecificAs (d e : Directive) : Bool :=
  let length (d : Directive) := (d.target.getD []).length
  length e < length d || (length e = length d && e.fields.length ≤ d.fields.length)

/-- The directive that decides about a target: the most specific one, of several the last. -/
def deciding? (ds : List Directive) (target : List Char) : Option Directive :=
  (ds.filter fun d => d.concerns target).foldl
    (fun best d => if best.all d.isAsSpecificAs then some d else best)
    none

def shows (ds : List Directive) (l : LogLine) : Bool :=
  (deciding? ds l.target.text.toList).any fun d => l.level.rank ≤ d.threshold

/-- What is shown: with `verbose` all but traces, otherwise what the setting asks for, and informational notes
if it is missing or invalid. -/
def choose (verbose : Bool) (setting : Option String) : List Directive :=
  if verbose then [{ threshold := LogLevel.debug.rank }]
  else (setting.bind fun s => parse? s.toList).getD [{ threshold := LogLevel.info.rank }]

end LogFilter
end DocLint
