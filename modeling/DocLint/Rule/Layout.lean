import DocLint.Rule
import DocLint.Spacing

/-!
# The layout of comments

Two rules check the layout: one that of every block, one that of class headers, which is less strict.
-/
namespace DocLint.Rule

def blockSpacingInfo : RuleInfo where
  code := "YD004"
  name := "block-comment-spacing"
  description := "Requires prose and exactly one empty line before the tags of every doc comment"

def headerSpacingInfo : RuleInfo where
  code := "YD005"
  name := "header-comment-spacing"
  severity := .warning
  description := "Warns when a class header lacks exactly one empty line before its tags"

def spacingViolations (info : RuleInfo) (policy : Spacing.Policy) (v : BlockView) :
    List Violation :=
  (Spacing.check policy v.block).map fun f => info.violation f.severity v.location f.message

def blockSpacing : BlockRule where
  toRuleInfo := blockSpacingInfo
  check := spacingViolations blockSpacingInfo .block

def headerSpacing : BlockRule where
  toRuleInfo := headerSpacingInfo
  check v :=
    match v.region with
    | .classHeader _ => spacingViolations headerSpacingInfo .header v
    | _ => []

end DocLint.Rule
