import DocLint.Command.Check

/-!
# The list of rules

Every rule on a line of its own, in columns.
-/
namespace DocLint.ListRules

/-- A text filled up with blanks to a width. -/
def padded (width : Nat) (s : String) : String :=
  s ++ String.ofList (List.replicate (width - s.length) ' ')

def row (code name severity description : String) : String :=
  padded 8 code ++ " " ++ padded 25 name ++ " " ++ padded 9 severity ++ " " ++ description ++ "\n"

def text : String :=
  "Available rules:\n\n" ++ row "Code" "Name" "Severity" "Description" ++
    String.ofList (List.replicate 90 '-') ++ "\n" ++
    String.join (Check.knownRules.map fun r => row r.code r.name r.severity.text r.description) ++
    "\nblock-tags (YD003) only runs when [tags.block] is configured.\n" ++
    "\nUse --rules to filter specific rules, e.g.:\n" ++
    "  yuidoc-lint check --rules class-header-tags,param-count\n" ++
    "  yuidoc-lint check --rules YD001,YD006\n"

end DocLint.ListRules
