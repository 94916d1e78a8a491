import DocLint.Text
import DocLint.Text.Alphanumeric

/-!
# Regular expressions

Says which texts are regular expressions.  The expressions in question stand between braces and so hold no closing
brace themselves; an opening brace outside of a class is therefore never complete.  Word boundaries are refused,
because they cannot be decided by looking at single characters.
-/
namespace DocLint.Text.Expression

/-- What an escape stands for: one character, or anything else that is as good as an item of a sequence. -/
inductive Atom where
  | char (c : Char)
  | other
  deriving DecidableEq, Repr

/-! ## Escapes -/

def hexValue? (c : Char) : Option Nat :=
  if c.isDigit then some (c.toNat - 0x30)
  else if 'a' ≤ c.toLower ∧ c.toLower ≤ 'f' then some (c.toLower.toNat - 0x57)
  else none

/-- A character by a certain number of hexadecimal digits. -/
def hexEscape? (digits : Nat) (cs : List Char) : Option (Atom × List Char) := do
  if cs.length < digits then none
  else
    let values ← (cs.take digits).mapM hexValue?
    let n := values.foldl (fun n d => 16 * n + d) 0
    if n.isValidChar then some (.char (Char.ofNat n), cs.drop digits) else none

/-- The control characters that have an escape of their own. -/
def controls : List (Char × Nat) :=
  [('a', 0x07), ('f', 0x0C), ('n', 0x0A), ('r', 0x0D), ('t', 0x09), ('v', 0x0B)]

/-- What follows a backslash. -/
def escape? : List Char → Option (Atom × List Char)
  | [] => none
  | 'x' :: cs => hexEscape? 2 cs
  | 'u' :: cs => hexEscape? 4 cs
  | 'U' :: cs => hexEscape? 8 cs
  | c :: cs =>
    if c = 'p' ∨ c = 'P' then
      match cs with
      | k :: rest => if "clmnpsz".toList.contains k.toLower then some (.other, rest) else none
      | [] => none
    else if "dswDSWAz".toList.contains c then some (.other, cs)
    else
      match controls.lookup c with
      | some n => some (.char (Char.ofNat n), cs)
      | none =>
        if c.isAlphanum || 0x80 ≤ c.toNat || c = '<' || c = '>' then none else some (.char c, cs)

/-! ## Classes -/

def classNames : List String :=
  ["alnum", "alpha", "ascii", "blank", "cntrl", "digit", "graph", "lower", "print", "punct", "space",
    "upper", "word", "xdigit"]

/-- What follows a named class, maybe negated, after its opening bracket. -/
def namedClass? : List Char → Option (List Char)
  | ':' :: cs =>
    let cs := (dropStart? ['^'] cs).getD cs
    match cs.dropWhile (· != ':') with
    | ':' :: ']' :: rest =>
      if classNames.contains (String.ofList (cs.takeWhile (· != ':'))) then some rest else none
    | _ => none
  | _ => none

/-- The items of a class after its opening bracket: a sign, dashes and a first closing bracket that stand for
themselves are passed over. -/
def classItems (cs : List Char) : List Char :=
  let cs := (dropStart? ['^'] cs).getD cs
  match cs with
  | ']' :: rest => rest
  | _ => cs.dropWhile (· == '-')

def classItem? : List Char → Option (Atom × List Char)
  | [] => none
  | '\\' :: cs => escape? cs
  | c :: cs => some (.char c, cs)

/-- What follows a class; `depth` counts the classes around the one at hand. -/
def afterClass? : (fuel depth : Nat) → List Char → Option (List Char)
  | 0, _, _ => none
  | _, _, [] => none
  | _ + 1, 0, ']' :: cs => some cs
  | fuel + 1, depth + 1, ']' :: cs => afterClass? fuel depth cs
  | fuel + 1, depth, '[' :: cs =>
    match namedClass? cs with
    | some rest => afterClass? fuel depth rest
    | none => afterClass? fuel (depth + 1) (classItems cs)
  | fuel + 1, depth, '&' :: '&' :: cs
  | fuel + 1, depth, '-' :: '-' :: cs
  | fuel + 1, depth, '~' :: '~' :: cs => afterClass? fuel depth cs
  | fuel + 1, depth, cs => do
    let (low, rest) ← classItem? cs
    match rest with
    | '-' :: next :: more =>
      if next = ']' ∨ next = '-' then afterClass? fuel depth rest
      else
        match low, ← classItem? (next :: more) with
        | .char low, (.char high, rest) => if low ≤ high then afterClass? fuel depth rest else none
        | _, _ => none
    | _ => afterClass? fuel depth rest

/-! ## Groups -/

/-- An expression that was read in part. -/
structure Reading where
  /-- The number of open groups. -/
  depth : Nat := 0
  names : List (List Char) := []
  /-- Can what was read last be repeated? -/
  canRepeat : Bool := false

def Reading.openGroup (r : Reading) : Reading := { r with depth := r.depth + 1, canRepeat := false }

def isName : List Char → Bool
  | [] => false
  | c :: cs =>
    (c = '_' || (isAlphanumeric c && !c.isDigit)) &&
      cs.all fun c => isAlphanumeric c || ['_', '.', '[', ']'].contains c

/-- Flags, each at most once, maybe with a dash that is not the last. -/
def areFlags (cs : List Char) : Bool :=
  (cs.all fun c => "imsUuxR-".toList.contains c && cs.count c == 1) && cs.getLast? != some '-'

/-- A group with a name. -/
def namedGroup? (r : Reading) (cs : List Char) : Option (Reading × List Char) :=
  let name := cs.takeWhile (· != '>')
  match cs.dropWhile (· != '>') with
  | _ :: rest =>
    if isName name && !r.names.contains name then
      some ({ r.openGroup with names := name :: r.names }, rest)
    else none
  | [] => none

/-- A group with flags, or flags for what follows. -/
def flaggedGroup? (r : Reading) (cs : List Char) : Option (Reading × List Char) :=
  let isFlag (c : Char) : Bool := c != ':' && c != ')'
  let flags := cs.takeWhile isFlag
  if !areFlags flags then none
  else
    match cs.dropWhile isFlag with
    | ':' :: rest => some (r.openGroup, rest)
    | ')' :: rest => if flags.isEmpty then none else some ({ r with canRepeat := false }, rest)
    | _ => none

/-- What follows an opening parenthesis. -/
def group? (r : Reading) : List Char → Option (Reading × List Char)
  | '?' :: 'P' :: '<' :: cs | '?' :: '<' :: cs => namedGroup? r cs
  | '?' :: cs => flaggedGroup? r cs
  | cs => some (r.openGroup, cs)

/-! ## Expressions -/

def readFrom : (fuel : Nat) → Reading → List Char → Bool
  | _, r, [] => r.depth == 0
  | 0, _, _ :: _ => false
  | fuel + 1, r, c :: cs =>
    if c = '(' then
      match group? r cs with
      | some (r, rest) => readFrom fuel r rest
      | none => false
    else if c = ')' then
      match r.depth with
      | 0 => false
      | depth + 1 => readFrom fuel { r with depth, canRepeat := true } cs
    else if c = '|' then readFrom fuel { r with canRepeat := false } cs
    else if c = '*' || c = '+' || c = '?' then r.canRepeat && readFrom fuel r cs
    else if c = '\x7b' then false
    else
      let rest? :=
        if c = '[' then afterClass? cs.length 0 (classItems cs)
        else if c = '\\' then (escape? cs).map Prod.snd
        else some cs
      match rest? with
      | some rest => readFrom fuel { r with canRepeat := true } rest
      | none => false

def isValid (cs : List Char) : Bool := readFrom cs.length {} cs

end DocLint.Text.Expression
