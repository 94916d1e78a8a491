import DocLint.Ignore.Pattern
import DocLint.Text.Blank
import DocLint.Text.Lines

/-!
# Ignore files

Each line of an ignore file is a rule: a pattern, maybe for directories only, that ignores what it matches or, with
an exclamation mark, takes it back in.  The last rule that matches decides.
-/
namespace DocLint.Ignore

open DocLint.Text

structure Rule where
  pattern : Pattern
  isWhitelist : Bool
  onlyDirectories : Bool

/-- What the rules say about an entry. -/
inductive Decision where
  | ignore
  | keep
  deriving DecidableEq, Repr

def endsWith (ending text : List Char) : Bool := (dropEnd? ending text).isSome

/-- A pattern without a slash may match anywhere below. -/
def anywhere (absolute : Bool) (pattern : List Char) : List Char :=
  if absolute || pattern.contains '/' || pattern = ['*', '*'] then pattern
  else "**/".toList ++ pattern

/-- A pattern that ends in whole components does not match the directory above them. -/
def strictlyBelow (pattern : List Char) : List Char :=
  if endsWith "/**".toList pattern then pattern ++ "/*".toList else pattern

/-- The slash at the end of a pattern for directories, if it has one, with a backslash before it. -/
def splitDirectoryMark (pattern : List Char) : List Char × Bool :=
  match dropEnd? ['/'] pattern with
  | some rest => ((dropEnd? ['\\'] rest).getD rest, true)
  | none => (pattern, false)

/-- The exclamation mark and the slash at the beginning of a pattern, if it has them.  A backslash makes the
exclamation mark a plain character. -/
def splitLead : List Char → Bool × Bool × List Char
  | '\\' :: '!' :: cs => (false, false, '!' :: cs)
  | '\\' :: '#' :: cs => (false, false, '#' :: cs)
  | '!' :: '/' :: cs => (true, true, cs)
  | '!' :: cs => (true, false, cs)
  | '/' :: cs => (false, true, cs)
  | cs => (false, false, cs)

/-- The rule of a line.  Comments, empty lines and invalid patterns give none. -/
def ruleOfLine? (line : List Char) : Option Rule :=
  if line.head? = some '#' then none
  else
    let line := if endsWith ['\\', ' '] line then line else trimEnd line
    if line.isEmpty then none
    else
      let (isWhitelist, absolute, rest) := splitLead line
      let (text, onlyDirectories) := splitDirectoryMark rest
      (Pattern.parse? (strictlyBelow (anywhere absolute text))).map fun pattern =>
        { pattern, isWhitelist, onlyDirectories }

/-- A text without its byte order marks. -/
def dropMarks (line : List Char) : List Char := line.dropWhile (· == '\uFEFF')

/-- The rules of an ignore file, up to the first line that is no text.  A byte order mark before the first line is
passed over; a single pattern that is nested too deep makes the whole file void. -/
def rulesOf (content : ByteArray) : List Rule :=
  let rules :=
    match ((textLines content).takeWhile Option.isSome).filterMap id with
    | [] => []
    | l :: ls => (dropMarks l :: ls).filterMap ruleOfLine?
  if rules.any fun r => r.pattern.isTooDeep then [] else rules

/-- What some rules say about an entry, given by its path as seen from the rules' directory. -/
def decide? (rules : List Rule) (path : List Char) (isDirectory : Bool) : Option Decision :=
  let bytes := path.flatMap bytesOf
  (rules.reverse.find? fun r =>
      (!r.onlyDirectories || isDirectory) && r.pattern.isMatch bytes).map
    fun r => if r.isWhitelist then .keep else .ignore

end DocLint.Ignore
