import DocLint.Text

/-!
# Patterns of ignore files

Patterns and paths are matched byte by byte.  `?` and `*` stop at a slash; `**` stands for whole components at
the beginning, at the end or between two slashes, and for two `*` anywhere else; a brace group stands for each
of its branches.
-/
namespace DocLint.Ignore

/-- A closed range of bytes. -/
abbrev ByteRange := UInt8 × UInt8

inductive Token where
  | byte (b : UInt8)
  | any
  | sequence
  /-- Components at the beginning of a path. -/
  | leading
  /-- Components at the end of a path. -/
  | trailing
  /-- Components between two slashes. -/
  | between
  | oneOf (negated : Bool) (ranges : List ByteRange)
  /-- The branches between two braces; without any it stands for nothing. -/
  | group (branches : List (List Token))
  deriving Repr

abbrev Pattern := List Token

def slash : UInt8 := 0x2F

/-! ## Matching -/

/-- The rest of a pattern after a sequence, tried at every place until `stop` holds of a byte. -/
def afterSequence (stop : UInt8 → Bool) (rest : List UInt8 → Bool) : List UInt8 → Bool
  | [] => rest []
  | b :: bs => rest (b :: bs) || (!stop b && afterSequence stop rest bs)

/-- The rest of a pattern tried after every slash of a text. -/
def afterSlashes (rest : List UInt8 → Bool) : List UInt8 → Bool
  | [] => false
  | b :: bs => (b = slash && rest bs) || afterSlashes rest bs

/-- The rest of a pattern after one byte. -/
def afterByte (fits : UInt8 → Bool) (rest : List UInt8 → Bool) : List UInt8 → Bool
  | [] => false
  | b :: bs => fits b && rest bs

def inRanges (ranges : List ByteRange) (b : UInt8) : Bool := ranges.any fun r => r.1 ≤ b && b ≤ r.2

mutual

/-- A token at the beginning of a text, and `rest` after it. -/
def matchToken : Token → (rest : List UInt8 → Bool) → List UInt8 → Bool
  | .byte x, rest, bs => afterByte (· == x) rest bs
  | .any, rest, bs => afterByte (· != slash) rest bs
  | .sequence, rest, bs => afterSequence (· == slash) rest bs
  | .leading, rest, bs => rest bs || afterSlashes rest bs
  | .trailing, rest, bs => afterByte (· == slash) (afterSequence (fun _ => false) rest) bs
  | .between, rest, bs => afterByte (· == slash) (fun bs => rest bs || afterSlashes rest bs) bs
  | .oneOf negated ranges, rest, bs => afterByte (fun b => inRanges ranges b != negated) rest bs
  | .group [], rest, bs => rest bs
  | .group (b :: more), rest, bs => matchTokens b rest bs || matchBranches more rest bs

/-- Tokens one after the other, and `rest` after them. -/
def matchTokens : List Token → (rest : List UInt8 → Bool) → List UInt8 → Bool
  | [], rest, bs => rest bs
  | t :: ts, rest, bs => matchToken t (matchTokens ts rest) bs

/-- One of some branches, and `rest` after it. -/
def matchBranches : List (List Token) → (rest : List UInt8 → Bool) → List UInt8 → Bool
  | [], _, _ => false
  | b :: more, rest, bs => matchTokens b rest bs || matchBranches more rest bs

end

/-- Does a pattern match a whole text?  Nothing but leading components matches everything. -/
def Pattern.isMatch : Pattern → List UInt8 → Bool
  | [.leading], _ => true
  | ts, bs => matchTokens ts List.isEmpty bs

/-! ## Nesting

A pattern counts as deep as the expression that says the same: a class, a repetition, a group, its branches if
they are several, and a sequence of several parts each stand one level deeper than what is around them. -/

/-- The parts that a token adds to a sequence: components at the end are a slash and a repetition. -/
def Token.parts : Token → Nat
  | .trailing => 2
  | .group [] => 0
  | _ => 1

/-- A sequence of several parts. -/
def isSeries (ts : List Token) : Bool := decide (2 ≤ (ts.map Token.parts).foldl (· + ·) 0)

mutual

def tokenDepth : Token → Nat
  | .byte _ => 0
  | .any | .trailing => 1
  | .sequence => 2
  | .leading | .between => 4
  | .oneOf _ ranges => if ranges.length ≤ 1 then 1 else 2
  | .group [] => 0
  | .group (b :: more) =>
    (if more.isEmpty then 1 else 2) +
      max (tokensDepth b + (isSeries b).toNat) (branchesDepth more)

def tokensDepth : List Token → Nat
  | [] => 0
  | t :: ts => max (tokenDepth t) (tokensDepth ts)

def branchesDepth : List (List Token) → Nat
  | [] => 0
  | b :: more => max (tokensDepth b + (isSeries b).toNat) (branchesDepth more)

end

def depthLimit : Nat := 250

/-- Is a pattern nested too deep to be used?  With the two ends of a text it is always a series. -/
def Pattern.isTooDeep (p : Pattern) : Bool := decide (depthLimit < tokensDepth p + 1)

/-! ## Reading -/

/-- A brace group that is open, or the pattern around all groups. -/
structure Group where
  /-- The finished branches. -/
  finished : List (List Token) := []
  /-- The branch at hand. -/
  current : List Token := []

/-- The innermost open group, and those around it. -/
structure Reading where
  group : Group := {}
  outer : List Group := []

namespace Reading

/-- Tokens at the end of the branch at hand. -/
def push (r : Reading) (ts : List Token) : Reading :=
  { r with group := { r.group with current := r.group.current ++ ts } }

/-- The last token of the branch at hand in another form. -/
def replaceLast (r : Reading) (f : Token → Token) : Reading :=
  match r.group.current.getLast? with
  | some t => { r with group := { r.group with current := r.group.current.dropLast ++ [f t] } }
  | none => r

def openGroup (r : Reading) : Reading := ⟨{}, r.group :: r.outer⟩

/-- The next branch of a group. -/
def nextBranch (r : Reading) : Reading :=
  { r with group := { finished := r.group.finished ++ [r.group.current] } }

def isVoid : Token → Bool
  | .group [] => true
  | _ => false

/-- A group ends.  Branches that stand for nothing are left out. -/
def closeGroup? (r : Reading) : Option Reading :=
  match r.outer with
  | [] => none
  | g :: outer =>
    let branches := (r.group.finished ++ [r.group.current]).filter fun b => !b.all isVoid
    some (push ⟨g, outer⟩ [.group branches])

end Reading

def bytesOf (c : Char) : List UInt8 := String.utf8EncodeChar c

/-- The bytes of the characters of a range, byte by byte. -/
def rangeBytes (lo hi : Char) : List ByteRange :=
  if lo = hi then (bytesOf lo).map fun b => (b, b)
  else
    match (bytesOf lo).reverse, bytesOf hi with
    | l :: ls, h :: hs => (ls.map fun b => (b, b)) ++ (l, h) :: hs.map fun b => (b, b)
    | _, _ => []

/-- What a class after its opening bracket turns out to be. -/
inductive ClassReading where
  | ranges (ranges : List (Char × Char)) (rest : List Char)
  | invalid
  | unclosed

/-- The ranges of a class: `ranges` holds those read so far, the last one first, and `inRange` says that a `-`
waits for the end of the last one.  A closing bracket at the very beginning stands for itself. -/
def classRanges (first inRange : Bool) (ranges : List (Char × Char)) : List Char → ClassReading
  | [] => .unclosed
  | c :: cs =>
    if c = ']' && !first then .ranges ((if inRange then [('-', '-')] else []) ++ ranges) cs
    else if c = '-' && !first && !inRange then classRanges false true ranges cs
    else
      match inRange, ranges with
      | true, (lo, _) :: more =>
        if c < lo then .invalid else classRanges false false ((lo, c) :: more) cs
      | _, _ => classRanges false false ((c, c) :: ranges) cs

/-- Is a class negated, and what follows the sign? -/
def classSign : List Char → Bool × List Char
  | '!' :: cs | '^' :: cs => (true, cs)
  | cs => (false, cs)

/-- Components in place of the token before them. -/
def componentsAfter (isEnd : Bool) : Token → Token
  | .leading => .leading
  | .trailing => .trailing
  | _ => if isEnd then .trailing else .between

/-- What two stars mean where they stand, and how many characters after them they take.  `prior` is the
character before them; inside a group a comma or an opening brace, there a plain character, counts like a
slash. -/
def doubleStar (r : Reading) (prior : Option Char) (rest : List Char) : Reading × Nat :=
  let plain := (r.push [.sequence, .sequence], 0)
  if r.group.current.isEmpty then
    match rest with
    | [] => (r.push [.leading], 0)
    | '/' :: _ => (r.push [.leading], 1)
    | _ => plain
  else if prior = some '/' || (!r.outer.isEmpty && (prior = some ',' || prior = some '\x7b')) then
    match rest with
    | [] => (r.replaceLast (componentsAfter true), 0)
    | '/' :: _ => (r.replaceLast (componentsAfter false), 1)
    | c :: _ =>
      if (c = ',' || c = '\x7d') && !r.outer.isEmpty then (r.replaceLast (componentsAfter true), 0)
      else plain
  else plain

/-- Reads a pattern.  `literal` says that a bracket was met that is never closed: from then on brackets stand
for themselves. -/
def readFrom : Nat → Reading → Bool → Option Char → List Char → Option Pattern
  | _, r, _, _, [] => if r.outer.isEmpty then some r.group.current else none
  | 0, _, _, _, _ :: _ => none
  | fuel + 1, r, literal, prior, c :: cs =>
    if c = '?' then readFrom fuel (r.push [.any]) literal (some c) cs
    else if c = '*' then
      match cs with
      | '*' :: rest =>
        let (r, n) := doubleStar r prior rest
        readFrom fuel r literal (some (if n = 0 then '*' else '/')) (rest.drop n)
      | _ => readFrom fuel (r.push [.sequence]) literal (some c) cs
    else if c = '[' && !literal then
      let (negated, body) := classSign cs
      match classRanges true false [] body with
      | .ranges ranges rest =>
        let token := Token.oneOf negated (ranges.flatMap fun p => rangeBytes p.1 p.2)
        readFrom fuel (r.push [token]) literal (some ']') rest
      | .invalid => none
      | .unclosed => readFrom fuel (r.push ((bytesOf c).map .byte)) true (some c) cs
    else if c = '\x7b' then readFrom fuel r.openGroup literal (some c) cs
    else if c = '\x7d' then
      match r.closeGroup? with
      | some r => readFrom fuel r literal (some c) cs
      | none => none
    else if c = ',' && !r.outer.isEmpty then readFrom fuel r.nextBranch literal (some c) cs
    else if c = '\\' then
      match cs with
      | x :: rest => readFrom fuel (r.push ((bytesOf x).map .byte)) literal (some x) rest
      | [] => none
    else readFrom fuel (r.push ((bytesOf c).map .byte)) literal (some c) cs

/-- The pattern of a text; `none` if it is invalid. -/
def Pattern.parse? (text : List Char) : Option Pattern := readFrom text.length {} false none text

end DocLint.Ignore
