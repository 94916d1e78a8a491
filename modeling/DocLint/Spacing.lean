import DocLint.Block
import DocLint.Severity

/-!
# The layout of a block

A block starts with prose, then has exactly one empty line, then its tags.  Empty lines are counted by marks:
between the last prose and the first tag there are two, that of the empty line and that of the tag.
-/
namespace DocLint.Spacing

structure Policy where
  /-- When the first tag follows the prose at once. -/
  missingBlank : Severity
  /-- When more than one empty line stands before the first tag. -/
  extraBlank : Severity
  requireProse : Bool
  checkProseGaps : Bool
  deriving DecidableEq, Repr

/-- The policy for every block. -/
def Policy.block : Policy := ⟨.error, .warning, true, true⟩

/-- The policy for class headers, where empty lines give no more than warnings. -/
def Policy.header : Policy := ⟨.warning, .warning, true, false⟩

inductive Finding where
  | noProse
  | tagSeparation (marks : Nat) (severity : Severity)
  | proseGap
  deriving DecidableEq, Repr

def Finding.severity : Finding → Severity
  | .noProse => .error
  | .tagSeparation _ severity => severity
  | .proseGap => .warning

def Finding.message : Finding → String
  | .noProse => "There must be a doc comment before the first tag/end of the block."
  | .tagSeparation .. =>
    "There must be exactly one empty line between the doc comment and the first tag."
  | .proseGap => "There shouldn't be more than 1 empty line in between comment lines."

/-- The marks between the last prose and the first tag when one empty line divides them. -/
def expectedMarks : Nat := 2

/-- One finding for each two neighbouring prose lines with more than one empty line between them. -/
def proseGaps (b : Block) : List Prose → List Finding
  | p :: q :: rest =>
    (if b.marksBetween p.pos q.pos > expectedMarks then [.proseGap] else []) ++
      proseGaps b (q :: rest)
  | _ => []

def tagSeparation (policy : Policy) (marks : Nat) : List Finding :=
  if marks = expectedMarks then []
  else [.tagSeparation marks (if marks < expectedMarks then policy.missingBlank else policy.extraBlank)]

def check (policy : Policy) (b : Block) : List Finding :=
  match b.prose.getLast? with
  | none => if policy.requireProse then [.noProse] else []
  | some last =>
    (if policy.checkProseGaps then proseGaps b b.prose else []) ++
      match b.tags with
      | [] => []
      | tag :: _ => tagSeparation policy (b.marksBetween last.pos tag.pos)

end DocLint.Spacing
