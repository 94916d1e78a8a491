import DocLint.Text

/-!
# Exclude patterns

A pattern is matched against a whole path.  `?` stands for one character and `*` for any number of them, slashes
included; `**` stands for any number of whole components, and has to be a component itself; `[...]` stands for
one character of a class.
-/
namespace DocLint.Glob

/-- One character of a class, or a range of them. -/
inductive ClassItem where
  | single (c : Char)
  | range (lo hi : Char)
  deriving DecidableEq, Repr

def ClassItem.holds (c : Char) : ClassItem → Bool
  | single s => c = s
  | range lo hi => lo ≤ c && c ≤ hi

inductive Token where
  | char (c : Char)
  | any
  | sequence
  | components
  | within (items : List ClassItem)
  | except (items : List ClassItem)
  deriving DecidableEq, Repr

/-- The items of a class between its brackets. -/
def classItems : List Char → List ClassItem
  | lo :: '-' :: hi :: cs => .range lo hi :: classItems cs
  | c :: cs => .single c :: classItems cs
  | [] => []

/-- A class after its opening bracket, with the number of characters it takes.  The first character of a class
may be a closing bracket. -/
def classToken? : List Char → Option (Token × Nat)
  | '!' :: c :: cs =>
    if ']' ∈ cs then
      let items := cs.takeWhile (· != ']')
      some (.except (classItems (c :: items)), items.length + 3)
    else none
  | '!' :: [] => none
  | c :: cs =>
    if ']' ∈ cs then
      let items := cs.takeWhile (· != ']')
      some (.within (classItems (c :: items)), items.length + 2)
    else none
  | [] => none

/-- Whole components after the tokens so far; twice in a row they say nothing more. -/
def pushComponents (tokens : List Token) : List Token :=
  if tokens.length > 1 && tokens.getLast? == some .components then tokens
  else tokens ++ [.components]

/-- The tokens of a pattern, after those that were read already; `prior` is the last character read. -/
def tokensFrom : Nat → Option Char → List Token → List Char → Option (List Token)
  | _, _, tokens, [] => some tokens
  | 0, _, _, _ :: _ => none
  | fuel + 1, prior, tokens, c :: cs =>
    if c = '?' then tokensFrom fuel (some c) (tokens ++ [.any]) cs
    else if c = '*' then
      match (cs.takeWhile (· == '*')).length with
      | 0 => tokensFrom fuel (some c) (tokens ++ [.sequence]) cs
      | 1 =>
        if prior = none ∨ prior = some '/' then
          match cs.drop 1 with
          | '/' :: rest => tokensFrom fuel (some '/') (pushComponents tokens) rest
          | [] => some (pushComponents tokens)
          | _ => none
        else none
      | _ => none
    else if c = '[' then
      match classToken? cs with
      | some (token, n) => tokensFrom fuel (some ']') (tokens ++ [token]) (cs.drop n)
      | none => none
    else tokensFrom fuel (some c) (tokens ++ [.char c]) cs

/-- The tokens of a pattern; `none` if it is invalid. -/
def tokens? (pattern : List Char) : Option (List Token) :=
  tokensFrom pattern.length none [] pattern

/-- How a match ends: it succeeds, it fails here but may succeed if a sequence before takes more, or the text
ends too early for any attempt. -/
inductive Verdict where
  | success
  | failure
  | exhausted
  deriving DecidableEq, Repr

/-- Does a token stand for a single character? -/
def Token.holds (c : Char) : Token → Bool
  | char x => c = x
  | any => true
  | within items => items.any (ClassItem.holds c)
  | except items => !items.any (ClassItem.holds c)
  | sequence | components => false

/-- The rest of a pattern after a sequence of characters, tried at each place where the sequence may end: for
whole components only at the start and after a slash, and at the end of the text. -/
def afterSequence (whole : Bool) (rest : List Char → Verdict) : Bool → List Char → Verdict
  | _, [] => rest []
  | tried, c :: cs =>
    match if tried then rest (c :: cs) else .failure with
    | .failure => afterSequence whole rest (!whole || c = '/') cs
    | verdict => verdict

def matchFrom : List Token → List Char → Verdict
  | [], [] => .success
  | [], _ :: _ => .failure
  | .sequence :: tokens, cs => afterSequence false (matchFrom tokens) true cs
  | .components :: tokens, cs => afterSequence true (matchFrom tokens) true cs
  | _ :: _, [] => .exhausted
  | token :: tokens, c :: cs => if token.holds c then matchFrom tokens cs else .failure

def isMatch (tokens : List Token) (text : List Char) : Bool := matchFrom tokens text = .success

/-- A pattern without its `**`. -/
def withoutComponents : List Char → List Char
  | '*' :: '*' :: cs => withoutComponents cs
  | c :: cs => c :: withoutComponents cs
  | [] => []

/-- Does a pattern exclude a path?  It does if it matches, and also if the path holds the pattern without its
`**` somewhere, as long as that is more than a slash. -/
def excludes (pattern path : List Char) : Bool :=
  ((tokens? pattern).any fun tokens => isMatch tokens path) ||
    (let plain := withoutComponents pattern
     plain ≠ [] && plain ≠ ['/'] && Text.contains plain path)

end DocLint.Glob
