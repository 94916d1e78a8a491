import DocLint.Path
import DocLint.TagRule

/-!
# Configuration

What a project can set: where and what to analyse, which checks run, the tags of each kind of declaration, and
for every rule, by name or by code, whether it runs and how severe it is.
-/
namespace DocLint

structure AnalyzerConfig where
  root : Path := ⟨['.']⟩
  exclude : List String := ["**/node_modules/**", "**/build/**"]
  respectGitignore : Bool := true
  parallelism : Option Nat := none
  deriving DecidableEq, Repr, Inhabited

structure ChecksConfig where
  blockSpacing : Bool := true
  headerSpacing : Bool := true
  paramCount : Bool := true
  requireModule : Bool := true
  deriving DecidableEq, Repr, Inhabited

/-- The blocks to which a tag rule applies. -/
inductive Scope where
  | classHeader
  | functionHeader
  | anyBlock
  deriving DecidableEq, Repr

/-- The name of a scope's table in a configuration. -/
def Scope.text : Scope → String
  | .classHeader => "class"
  | .functionHeader => "function"
  | .anyBlock => "block"

structure TagsConfig where
  classHeader : Option TagOptions := none
  functionHeader : Option TagOptions := none
  anyBlock : Option TagOptions := none
  deriving DecidableEq, Repr, Inhabited

/-- What a configuration says about one rule. -/
structure RuleConfig where
  enabled : Option Bool := none
  severity : Option Severity := none
  deriving DecidableEq, Repr, Inhabited

structure Config where
  analyzer : AnalyzerConfig := {}
  checks : ChecksConfig := {}
  tags : TagsConfig := {}
  rules : List (String × RuleConfig) := []
  deriving DecidableEq, Repr, Inhabited

namespace Config

/-- The entry for a rule: that of its name, and only without one that of its code. -/
def rule? (c : Config) (name code : String) : Option RuleConfig :=
  c.rules.lookup name <|> c.rules.lookup code

def isEnabled (c : Config) (name code : String) : Bool :=
  ((c.rule? name code).bind RuleConfig.enabled).getD true

def severity? (c : Config) (name code : String) : Option Severity :=
  (c.rule? name code).bind RuleConfig.severity

/-- The configuration with an entry for a rule name, in place of any entry it had. -/
def setRule (c : Config) (name : String) (r : RuleConfig) : Config :=
  { c with rules := (name, r) :: c.rules.filter fun e => e.1 != name }

end Config
end DocLint
