import DocLint.Rule

/-!
# Documented parameters

A function's comment has one `@param` tag for each parameter that the function declares.
-/
namespace DocLint.Rule

def paramCountInfo : RuleInfo where
  code := "YD006"
  name := "param-count"
  description := "Requires one @param tag per declared function parameter"

def paramCountTemplate : String := "Parameter count mismatch: expected %s, documented %s."

/-- The violation of a function that declares and documents different numbers of parameters. -/
def paramCountViolation (location : Location) (declared documented : Nat) : Violation :=
  { paramCountInfo.templated .error location paramCountTemplate
      [toString declared, toString documented] with
    suggestion := some
      (if declared > documented then "Document the missing @param" else "Remove the surplus @param") }

def paramCount : BlockRule where
  toRuleInfo := paramCountInfo
  check v :=
    match v.region with
    | .functionHeader marker =>
      let declared := v.file.stream.declaredParams marker
      let documented := v.block.tagCount "@param"
      if declared = documented then [] else [paramCountViolation v.location declared documented]
    | _ => []

end DocLint.Rule
