import DocLint.Environment

/-!
# The arguments of a run

Arguments are read from left to right: options of the program, the name of a command, and the options and the path
of the command.  The first argument that is wrong ends the reading, and so does a request for help or for the
version.
-/
namespace DocLint

inductive Format where
  | text
  | json
  | compact
  | rich
  deriving DecidableEq, Repr

def Format.ofText? : String → Option Format
  | "text" => some .text
  | "json" => some .json
  | "compact" => some .compact
  | "rich" => some .rich
  | _ => none

inductive Command where
  | check (path : Path) (format : Format) (rules : Option String) (exclude : List String)
  | listRules
  | init (force : Bool)
  deriving DecidableEq, Repr

structure Invocation where
  verbose : Bool
  config : Option Path
  command : Command
  deriving DecidableEq, Repr

/-- What the arguments come to. -/
inductive Request where
  | run (invocation : Invocation)
  | help
  | version
  | usageError
  deriving DecidableEq, Repr

namespace Arguments

/-- Where an argument stands: before the name of a command, or after one. -/
inductive Level where
  | program
  | check
  | listRules
  | init
  | help
  deriving DecidableEq, Repr

def Level.ofName? : String → Option Level
  | "check" => some .check
  | "list-rules" => some .listRules
  | "init" => some .init
  | "help" => some .help
  | _ => none

inductive Flag where
  | verbose
  | config
  | format
  | rules
  | exclude
  | force
  | help
  | version
  deriving DecidableEq, Repr

def Flag.takesValue : Flag → Bool
  | config | format | rules | exclude => true
  | _ => false

def Flag.isKnownAt : Flag → Level → Bool
  | verbose, _ | config, _ | help, _ => true
  | version, l => l = .program
  | format, l | rules, l | exclude, l => l = .check
  | force, l => l = .init

def Flag.ofLong? : String → Option Flag
  | "verbose" => some .verbose
  | "config" => some .config
  | "format" => some .format
  | "rules" => some .rules
  | "exclude" => some .exclude
  | "force" => some .force
  | "help" => some .help
  | "version" => some .version
  | _ => none

def Flag.ofShort? : Char → Option Flag
  | 'v' => some .verbose
  | 'c' => some .config
  | 'f' => some .format
  | 'e' => some .exclude
  | 'h' => some .help
  | 'V' => some .version
  | _ => none

/-- What the arguments of one level set. -/
structure Given where
  verbose : Bool := false
  config : Option String := none
  format : Option Format := none
  rules : Option String := none
  exclude : List String := []
  force : Bool := false
  path : Option String := none
  deriving DecidableEq, Repr

/-- What reading a part of an argument leads to. -/
inductive Step where
  | next (g : Given)
  | needsValue (f : Flag) (g : Given)
  | stop (r : Request)

/-- Sets an option that has a value.  Only patterns to exclude may be given more than once; a path is not
empty. -/
def setValue (f : Flag) (value : List Char) (g : Given) : Step :=
  let text := String.ofList value
  match f with
  | .config =>
    if g.config.isSome || text.isEmpty then .stop .usageError else .next { g with config := some text }
  | .format =>
    match g.format, Format.ofText? text with
    | none, some format => .next { g with format := some format }
    | _, _ => .stop .usageError
  | .rules =>
    if g.rules.isSome then .stop .usageError else .next { g with rules := some text }
  | .exclude => .next { g with exclude := g.exclude ++ [text] }
  | _ => .stop .usageError

/-- Sets an option without a value, which may be given once. -/
def setFlag (f : Flag) (g : Given) : Step :=
  match f with
  | .verbose => if g.verbose then .stop .usageError else .next { g with verbose := true }
  | .force => if g.force then .stop .usageError else .next { g with force := true }
  | .help => .stop .help
  | .version => .stop .version
  | _ => .stop .usageError

/-- An option by its long name, maybe with a value after an equals sign. -/
def readLong (level : Level) (body : List Char) (g : Given) : Step :=
  let name := body.takeWhile (· != '=')
  match Flag.ofLong? (String.ofList name), (body.drop name.length) with
  | some f, rest =>
    if !f.isKnownAt level then .stop .usageError
    else
      match f.takesValue, rest with
      | true, [] => .needsValue f g
      | true, _ :: value => setValue f value g
      | false, [] => setFlag f g
      | false, _ :: _ => .stop .usageError
  | none, _ => .stop .usageError

/-- Options by their letters, the last one maybe with a value behind it. -/
def readShort (level : Level) : List Char → Given → Step
  | [], g => .next g
  | c :: cs, g =>
    match Flag.ofShort? c with
    | none => .stop .usageError
    | some f =>
      if !f.isKnownAt level then .stop .usageError
      else if f.takesValue then
        match cs with
        | [] => .needsValue f g
        | '=' :: value => setValue f value g
        | value => setValue f value g
      else
        match setFlag f g with
        | .next g => readShort level cs g
        | step => step

/-- Can an argument be the value of the option before it? -/
def isValue (arg : String) : Bool := arg = "-" || arg.toList.head? ≠ some '-'

/-- An argument that is no option, inside of a command. -/
def readPositional (level : Level) (arg : String) (g : Given) : Step :=
  if level = .check && g.path.isNone && !arg.isEmpty then .next { g with path := some arg }
  else .stop .usageError

def readOption (level : Level) (arg : String) (g : Given) : Step :=
  match arg.toList with
  | '-' :: '-' :: body => readLong level body g
  | '-' :: c :: cs => readShort level (c :: cs) g
  | _ => readPositional level arg g

/-- The arguments of a command.  After `--` none is an option. -/
def readCommand (level : Level) : Bool → Given → List String → Except Request Given
  | _, g, [] => .ok g
  | false, g, "--" :: rest => readCommand level true g rest
  | onlyPositional, g, arg :: rest =>
    match if onlyPositional then readPositional level arg g else readOption level arg g with
    | .next g => readCommand level onlyPositional g rest
    | .stop r => .error r
    | .needsValue f g =>
      match rest with
      | [] => .error .usageError
      | value :: rest =>
        match if isValue value then setValue f value.toList g else .stop .usageError with
        | .next g => readCommand level onlyPositional g rest
        | _ => .error .usageError

/-- The options of the program, then the command with its arguments. -/
def readProgram : Given → List String → Except Request (Given × Level × List String)
  | _, [] => .error .usageError
  | g, arg :: rest =>
    if arg.toList.head? = some '-' && arg != "-" && arg != "--" then
      match readOption .program arg g with
      | .next g => readProgram g rest
      | .stop r => .error r
      | .needsValue f g =>
        match rest with
        | [] => .error .usageError
        | value :: rest =>
          match if isValue value then setValue f value.toList g else .stop .usageError with
          | .next g => readProgram g rest
          | _ => .error .usageError
    else
      match Level.ofName? arg with
      | some level => .ok (g, level, rest)
      | none => .error .usageError

/-- The path of a configuration: the one given last, or that of the environment, which is not empty either. -/
def configPath (e : Environment) (outer inner : Given) : Except Request (Option Path) :=
  let setting := e.get? "YUIDOC_LINT_CONFIG"
  if setting = some "" && (outer.config.isNone || inner.config.isNone) then .error .usageError
  else .ok ((inner.config <|> outer.config <|> setting).map Path.ofString)

def command (level : Level) (g : Given) : Command :=
  match level with
  | .init => .init g.force
  | .check =>
    .check (.ofString (g.path.getD ".")) (g.format.getD .text) g.rules g.exclude
  | _ => .listRules

/-- Help may be asked for by a command of its own, for one of the commands. -/
def readHelp : List String → Request
  | [] => .help
  | [name] => if (Level.ofName? name).isSome then .help else .usageError
  | _ => .usageError

def read (e : Environment) (args : List String) : Except Request Request := do
  let (outer, level, rest) ← readProgram {} args
  if level = .help then return readHelp rest
  let inner ← readCommand level false {} rest
  let config ← configPath e outer inner
  return .run ⟨outer.verbose || inner.verbose, config, command level inner⟩

/-- What some arguments ask for. -/
def parse (e : Environment) (args : List String) : Request :=
  match read e args with
  | .ok r => r
  | .error r => r

def helpText : String :=
  "Checks JavaScript doc comments against YuiDoc conventions\n\n" ++
    "Usage: yuidoc-lint [OPTIONS] <COMMAND>\n\n" ++
    "Commands:\n" ++
    "  check       Run lint checks\n" ++
    "  list-rules  List available rules\n" ++
    "  init        Initialize configuration file\n" ++
    "  help        Print this message or the help of the given subcommand(s)\n\n" ++
    "Options:\n" ++
    "  -v, --verbose          Enable verbose output\n" ++
    "  -c, --config <CONFIG>  Path to configuration file [env: YUIDOC_LINT_CONFIG=]\n" ++
    "  -h, --help             Print help\n" ++
    "  -V, --version          Print version\n"

def versionText : String := "yuidoc-lint 0.1.0\n"

def usageText : String :=
  "error: the arguments are not understood\n\nUsage: yuidoc-lint [OPTIONS] <COMMAND>\n\n" ++
    "For more information, try '--help'.\n"

end Arguments
end DocLint
