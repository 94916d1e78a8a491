import DocLint.Config
import DocLint.Rule

/-!
# The tags of a header

A tag rule, bound to the headers of classes, to those of functions, or to every block.
-/
namespace DocLint.Rule

def headerTagsInfo : Scope → RuleInfo
  | .classHeader =>
    { code := "YD001", name := "class-header-tags"
      description := "Checks required and rivaling tags of class headers" }
  | .functionHeader =>
    { code := "YD002", name := "method-header-tags"
      description := "Checks required tags of function and method headers" }
  | .anyBlock =>
    { code := "YD003", name := "block-tags"
      description := "Checks configured tags on every doc comment" }

def appliesTo : Scope → Region → Bool
  | .anyBlock, _ => true
  | .classHeader, .classHeader _ => true
  | .functionHeader, .functionHeader _ => true
  | _, _ => false

def tagSuggestion? : TagRule.Finding → Option String
  | .missingTag tag => some s!"Add a {tag.text} tag to the comment"
  | .rivalConflict group => some s!"Keep only one of {TagName.listText group}"
  | _ => none

def headerTags (scope : Scope) (rule : TagRule) : BlockRule where
  toRuleInfo := headerTagsInfo scope
  check v :=
    if appliesTo scope v.region then
      (rule.checkBlock v.block).map fun f =>
        { (headerTagsInfo scope).templated f.severity v.location f.template f.args with
          suggestion := tagSuggestion? f }
    else []

end DocLint.Rule
