import DocLint.Rule

/-!
# The module of a file

Every file names its module in at least one comment.
-/
namespace DocLint.Rule

def modulePresenceInfo : RuleInfo where
  code := "YD007"
  name := "at-least-one-module"
  description := "Requires at least one @module tag in every file"

def modulePresence : FileRule where
  toRuleInfo := modulePresenceInfo
  check f blocks :=
    if blocks.any fun b => b.hasTag "@module" then []
    else
      [{ modulePresenceInfo.violation .error (f.location 0)
          "The @module tag seems to be missing. It is needed at least once." with
        suggestion := some "Add a @module tag to the file header" }]

end DocLint.Rule
