import DocLint.Stream

/-!
# What a comment documents

Everything before the first opening parenthesis or brace of a file belongs to the class header.  After that, a
comment documents the next function, unless a comma or a closing brace ends the declaration before it.
-/
namespace DocLint

inductive Region where
  | classHeader (boundary : Nat)
  | functionHeader (marker : Nat)
  | elsewhere
  deriving DecidableEq, Repr

namespace Stream

/-- Where the class header ends. -/
def classBoundary (s : Stream) : Nat := (s.findFrom [.openParen, .openBrace] 0).getD s.size

/-- The function that a comment at `pos` documents. -/
def functionMarker? (s : Stream) (pos : Nat) : Option Nat :=
  match s.findFrom [.functionKeyword] pos, s.findFrom [.comma, .closeBrace] pos with
  | some marker, some stop => if stop < marker then none else some marker
  | marker, none => marker
  | none, _ => none

def classify (s : Stream) (pos : Nat) : Region :=
  if pos < s.classBoundary then .classHeader s.classBoundary
  else
    match s.functionMarker? pos with
    | some marker => .functionHeader marker
    | none => .elsewhere

end Stream

/-- The number of slots of a parameter list that hold something.  `depth` counts the brackets open so far,
`filled` says whether the slot at hand holds something yet. -/
def countSlots (depth : Nat) (filled : Bool) : List Kind → Nat
  | [] => filled.toNat
  | k :: ks =>
    if k = .comma ∧ depth = 0 then filled.toNat + countSlots 0 false ks
    else
      let depth' :=
        if k.closing?.isSome then depth + 1 else if k.isClosing then depth - 1 else depth
      countSlots depth' (filled || !(k.isTrivia || k.isDoc)) ks

/-- The number of parameters that the function at `marker` declares.  A parameter with brackets of its own
counts once; a list that is missing or never closed declares none. -/
def Stream.declaredParams (s : Stream) (marker : Nat) : Nat :=
  match s.findFrom [.openParen] marker with
  | none => 0
  | some opening =>
    match s.matching? opening with
    | none => 0
    | some closing => countSlots 0 false ((s.between opening closing).map fun p => p.2.kind)

end DocLint
