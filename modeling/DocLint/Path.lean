import DocLint.Text

/-!
# Paths

A path keeps its text as it was written, and is compared, stripped and taken apart by its components.  The
text is cut at every `/`; an empty segment and the segment `.` are no components, except that a leading `/`
is the root and a leading `.` stands for the directory that a relative path starts from.
-/
namespace DocLint

open DocLint.Text

structure Path where
  chars : List Char
  deriving DecidableEq, Repr, Inhabited

namespace Path

inductive Component where
  | root
  | current
  | parent
  | normal (name : List Char)
  deriving DecidableEq, Repr

namespace Component

/-- Components of different sorts are ordered by sort. -/
def rank : Component → Nat
  | root => 0
  | current => 1
  | parent => 2
  | normal _ => 3

def name : Component → List Char
  | normal name => name
  | _ => []

instance : Ord Component := ⟨compareLex (compareOn rank) (compareOn name)⟩

end Component

def ofString (s : String) : Path := ⟨s.toList⟩

def text (p : Path) : String := String.ofList p.chars

/-- A segment that is no component inside a path. -/
def isNoise (segment : List Char) : Bool := segment = [] || segment = ['.']

def component? (segment : List Char) : Option Component :=
  if isNoise segment then none
  else if segment = ['.', '.'] then some .parent
  else some (.normal segment)

/-- The beginning of a path, and the segments after it. -/
inductive Anchor where
  | root
  | current
  | nothing
  deriving DecidableEq, Repr

def Anchor.components : Anchor → List Component
  | .root => [.root]
  | .current => [.current]
  | .nothing => []

/-- The text of a path with the given beginning and further segments. -/
def Anchor.withSegments (segments : List (List Char)) : Anchor → Path
  | .root => ⟨'/' :: joinWith ['/'] segments⟩
  | .current => ⟨joinWith ['/'] (['.'] :: segments)⟩
  | .nothing => ⟨joinWith ['/'] segments⟩

def anchored (p : Path) : Anchor × List (List Char) :=
  match splitOn '/' p.chars with
  | [] :: s :: ss => (.root, s :: ss)
  | ['.'] :: ss => (.current, ss)
  | ss => (.nothing, ss)

def components (p : Path) : List Component :=
  p.anchored.1.components ++ p.anchored.2.filterMap component?

/-- Paths with the same components are the same place. -/
def sameComponents (p q : Path) : Bool := p.components = q.components

def isAbsolute (p : Path) : Bool := p.chars.head? = some '/'

/-- The order of paths: component by component, whatever the spelling. -/
def order : Path → Path → Ordering := compareOn components

/-- The path `q` as seen from the directory `p`.  An absolute path stays as it is. -/
def join (p q : Path) : Path :=
  if q.isAbsolute then q
  else if p.chars = [] ∨ p.chars.getLast? = some '/' then ⟨p.chars ++ q.chars⟩
  else ⟨p.chars ++ '/' :: q.chars⟩

instance : Div Path := ⟨join⟩

/-- Segments without those at the end that are no components. -/
def trimSegments (segments : List (List Char)) : List (List Char) :=
  (segments.reverse.dropWhile isNoise).reverse

/-- The path without its last component, if that is not the root. -/
def parent? (p : Path) : Option Path :=
  let (anchor, segments) := p.anchored
  match trimSegments segments, anchor with
  | [], .current => some ⟨[]⟩
  | [], _ => none
  | s :: ss, anchor => some (anchor.withSegments (trimSegments (s :: ss).dropLast))

def ancestorsWithin : Nat → Path → List Path
  | 0, p => [p]
  | n + 1, p =>
    match p.parent? with
    | none => [p]
    | some q => p :: ancestorsWithin n q

/-- The path itself, its parent, and so on.  Every step takes one component away. -/
def ancestors (p : Path) : List Path := p.ancestorsWithin p.components.length

def fileName? (p : Path) : Option (List Char) :=
  match p.components.getLast? with
  | some (.normal name) => some name
  | _ => none

/-- What follows the last point of a name.  A point at the very beginning does not count. -/
def nameExtension? (name : List Char) : Option (List Char) :=
  match name.reverse.dropWhile (· != '.') with
  | _ :: _ :: _ => some (name.reverse.takeWhile (· != '.')).reverse
  | _ => none

def extension? (p : Path) : Option (List Char) := p.fileName?.bind nameExtension?

/-- Segments after the first `n` that are components. -/
def dropReal : Nat → List (List Char) → List (List Char)
  | 0, segments => segments
  | _ + 1, [] => []
  | n + 1, s :: ss => if isNoise s then dropReal (n + 1) ss else dropReal n ss

/-- What is left of a path after its first `n` components. -/
def dropComponents (n : Nat) (p : Path) : Path :=
  let (anchor, segments) := p.anchored
  match n, anchor with
  | 0, anchor => anchor.withSegments (trimSegments segments)
  | n + 1, .nothing => rest (dropReal (n + 1) segments)
  | n + 1, _ => rest (dropReal n segments)
where
  rest (segments : List (List Char)) : Path :=
    ⟨joinWith ['/'] (trimSegments (segments.dropWhile isNoise))⟩

/-- The path as seen from `base`, if it lies at or below it. -/
def below? (base p : Path) : Option Path :=
  if base.components.isPrefixOf p.components then some (p.dropComponents base.components.length)
  else none

end Path
end DocLint
