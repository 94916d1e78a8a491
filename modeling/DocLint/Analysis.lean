import DocLint.Language
import DocLint.RuleSet

/-!
# The analysis of a file

Every doc comment is either read as a block or reported as unclosed.  Each rule that is enabled looks at each
block, then each file rule at all of them; the configuration may change the severity of what they find.
-/
namespace DocLint

/-- Unclosed comments are reported like the violations of a rule, by this name and code. -/
def unclosedInfo : RuleInfo where
  code := "YD000"
  name := "malformed-comment"
  description := "Reports doc comments that are never closed"

/-- What a rule found, with the severity that the configuration asks for.  A disabled rule finds nothing. -/
def Config.adjust (c : Config) (r : RuleInfo) (vs : List Violation) : List Violation :=
  if c.isEnabled r.name r.code then
    match c.severity? r.name r.code with
    | some severity => vs.map fun v => { v with severity }
    | none => vs
  else []

namespace FileView

variable (f : FileView)

/-- The openers of comments that are never closed. -/
def unclosed : List Nat :=
  f.stream.openers.filter fun o =>
    match Block.extract f.stream o with
    | .ok _ => false
    | .error _ => true

def blocks : List Block :=
  f.stream.openers.filterMap fun o => (Block.extract f.stream o).toOption

def blockView (b : Block) : BlockView := ⟨f, b, f.stream.classify b.opener⟩

def unclosedViolation (opener : Nat) : Violation :=
  unclosedInfo.violation .error (f.location opener) "Doc comment is never closed."

/-- What the rules find in one block. -/
def blockViolations (c : Config) (rules : RuleSet) (b : Block) : List Violation :=
  let view := f.blockView b
  rules.blockRules.flatMap fun r => c.adjust r.toRuleInfo (r.check view)

/-- What the file rules find. -/
def fileViolations (c : Config) (rules : RuleSet) : List Violation :=
  rules.fileRules.flatMap fun r => c.adjust r.toRuleInfo (r.check f f.blocks)

/-- Everything that is found in a file, in the order in which it is found. -/
def found (c : Config) (rules : RuleSet) : List Violation :=
  f.unclosed.flatMap (fun o => c.adjust unclosedInfo [f.unclosedViolation o]) ++
    f.blocks.flatMap (f.blockViolations c rules) ++ f.fileViolations c rules

/-- The violations of a file, in the order in which they are listed. -/
def analyze (c : Config) (rules : RuleSet) : List Violation := Violation.sorted (f.found c rules)

end FileView

/-- The violations of a text in a language, unless its reader refuses the text. -/
def analyzeSource (l : Language) (c : Config) (rules : RuleSet) (path : Path)
    (source : List Char) : Except UnexpectedInput (List Violation) :=
  (l.read source).map fun stream => (FileView.mk path stream).analyze c rules

/-- The violations of a script. -/
def analyzeScript (c : Config) (rules : RuleSet) (path : Path) (source : List Char) :
    List Violation :=
  (FileView.mk path (.ofSource source)).analyze c rules

theorem analyzeSource_javaScript (c : Config) (rules : RuleSet) (path : Path)
    (source : List Char) :
    analyzeSource .javaScript c rules path source = .ok (analyzeScript c rules path source) := rfl

end DocLint
