import DocLint.Block
import DocLint.Region
import DocLint.Violation

/-!
# Rules

A block rule looks at one block at a time, together with the file it stands in and the region that it
documents; a file rule looks at all blocks of a file at once.
-/
namespace DocLint

/-- A file under analysis. -/
structure FileView where
  path : Path
  stream : Stream

/-- The place of a token; for a position outside the file, its beginning. -/
def FileView.location (f : FileView) (pos : Nat) : Location :=
  .ofToken? f.path f.stream.tokens[pos]?

structure BlockView where
  file : FileView
  block : Block
  region : Region

/-- Everything found in a block is reported where the block opens. -/
def BlockView.location (v : BlockView) : Location := v.file.location v.block.opener

structure RuleInfo where
  code : String
  name : String
  severity : Severity := .error
  description : String := ""
  deriving DecidableEq, Repr

namespace RuleInfo

/-- Is a rule among those that are selected by name or code? -/
def selectedBy (r : RuleInfo) (selected : List String) : Bool :=
  selected.any fun s => s == r.name || s == r.code

/-- A violation of a rule. -/
def violation (r : RuleInfo) (severity : Severity) (location : Location) (message : String) :
    Violation :=
  { code := r.code, rule := r.name, severity, location, message }

/-- A violation of a rule whose message has places for arguments. -/
def templated (r : RuleInfo) (severity : Severity) (location : Location) (template : String)
    (args : List String) : Violation :=
  { r.violation severity location (Message.render template args) with args }

end RuleInfo

structure BlockRule extends RuleInfo where
  check : BlockView → List Violation

structure FileRule extends RuleInfo where
  check : FileView → List Block → List Violation

/-- The rules of a run: those for blocks and those for files. -/
structure RuleSet where
  blockRules : List BlockRule := []
  fileRules : List FileRule := []

namespace RuleSet

def infos (s : RuleSet) : List RuleInfo :=
  s.blockRules.map (·.toRuleInfo) ++ s.fileRules.map (·.toRuleInfo)

def size (s : RuleSet) : Nat := s.blockRules.length + s.fileRules.length

/-- The rules that are selected by name or code. -/
def select (s : RuleSet) (selected : List String) : RuleSet where
  blockRules := s.blockRules.filter fun r => r.selectedBy selected
  fileRules := s.fileRules.filter fun r => r.selectedBy selected

end RuleSet
end DocLint
