import DocLint.Command.Failure

/-!
# A first configuration

Writes a configuration to start from.  A file that is there already is kept unless it may be overwritten.
-/
namespace DocLint.Init

def configName : String := "yuidoc-lint.toml"

def configText : String :=
"# yuidoc-lint configuration

[analyzer]
# Root directory to analyze (default: current directory)
# root = \"./src\"

# Glob patterns to exclude from analysis
exclude = [
    \"**/node_modules/**\",
    \"**/build/**\",
    \"**/*.min.js\",
]

# Respect .gitignore files
respect_gitignore = true

# Number of files analyzed in parallel (default: one per CPU)
# parallelism = 4

[checks]
# Prose and one empty line before the tags of every doc comment (YD004)
block_spacing = true
# The same layout on class headers, reported as warnings (YD005)
header_spacing = true
# One @param per declared function parameter (YD006)
param_count = true
# At least one @module tag per file (YD007)
require_module = true

# Tag rules per declaration kind. Omitted kinds use the YuiDoc preset.
[tags.class]
required = [\"@class\"]
rivaling = [[\"@constructor\", \"@static\"]]
relevant = [\"@class\", \"@constructor\", \"@static\", \"@extends\", \"@namespace\"]
rivaling_mandatory = true
anchor = \"@class\"

[tags.function]
required = [\"@method\", \"@return\"]
relevant = [\"@method\", \"@param\", \"@return\"]

# Checked on every doc comment when present
# [tags.block]
# required = [\"@since\"]
# relevant = [\"@since\"]

# Per-rule overrides, by name or code
# [rules.param-count]
# enabled = true
# severity = \"warning\"
"

/-- The tree with a configuration in a directory, and the path of the configuration. -/
def writeConfig (t : FileTree) (directory : Path) (force : Bool) :
    Except CommandFailure (FileTree × Path) :=
  let path := directory / Path.ofString configName
  if t.holds path && !force then .error (.configExists path)
  else
    match t.write path configText with
    | .ok t => .ok (t, path)
    | .error e => .error (.configUnwritable path e)

/-- What is said when the configuration was written. -/
def nextSteps : String :=
  s!"Created {configName}\n\nNext steps:\n  1. Edit {configName} to configure rules\n" ++
    "  2. Run: yuidoc-lint check\n"

end DocLint.Init
