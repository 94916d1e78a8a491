import DocLint.Rule.HeaderTags
import DocLint.Rule.Layout
import DocLint.Rule.ModulePresence
import DocLint.Rule.ParamCount

/-!
# The rules of a configuration

Class and function headers have tag rules even if the configuration is silent; a tag rule for every block has
to be configured.  The other rules are switched on and off one by one.
-/
namespace DocLint

/-- The tags of class headers: either `@constructor` or `@static`, after `@class`. -/
def TagOptions.classPreset : TagOptions where
  required := ["@class"]
  rivaling := [["@constructor", "@static"]]
  relevant := ["@class", "@constructor", "@static", "@extends", "@namespace"]
  rivalingMandatory := true
  anchor := some "@class"

/-- The tags of function headers. -/
def TagOptions.functionPreset : TagOptions where
  required := ["@method", "@return"]
  relevant := ["@method", "@param", "@return"]

/-- A tag rule of a configuration that cannot be built. -/
structure InvalidRule where
  scope : Scope
  cause : TagRuleError
  deriving DecidableEq, Repr

def InvalidRule.message (e : InvalidRule) : String :=
  s!"Invalid [tags.{e.scope.text}] rule: {e.cause.message}"

namespace RuleSet

def tagRule (scope : Scope) (options : TagOptions) : Except InvalidRule BlockRule :=
  match TagRule.build options with
  | .ok rule => .ok (Rule.headerTags scope rule)
  | .error cause => .error ⟨scope, cause⟩

/-- The rules of a configuration, or the first tag table that is invalid. -/
def ofConfig (c : Config) : Except InvalidRule RuleSet := do
  let classRule ← tagRule .classHeader (c.tags.classHeader.getD .classPreset)
  let functionRule ← tagRule .functionHeader (c.tags.functionHeader.getD .functionPreset)
  let blockRule ← c.tags.anyBlock.mapM (tagRule .anyBlock)
  .ok {
    blockRules :=
      [classRule, functionRule] ++ blockRule.toList ++
      (if c.checks.blockSpacing then [Rule.blockSpacing] else []) ++
      (if c.checks.headerSpacing then [Rule.headerSpacing] else []) ++
      (if c.checks.paramCount then [Rule.paramCount] else [])
    fileRules := if c.checks.requireModule then [Rule.modulePresence] else [] }

/-- The rules of a project that configures nothing. -/
def standard : Except InvalidRule RuleSet := ofConfig {}

/-- Every rule there is; the tag rule for every block asks for nothing. -/
def every : Except InvalidRule RuleSet := ofConfig { tags := { anyBlock := some {} } }

end RuleSet
end DocLint
