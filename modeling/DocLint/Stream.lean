import DocLint.Token

/-!
# Token streams

A stream is a token list together with an index: where doc comments open and close, where their tags
stand, and which brackets belong together.  `Stream.ofTokens` computes the index; a stream with any other
index is a value like any other, and what reads a stream relies on nothing but its fields.
-/
namespace DocLint

/-- A doc comment of the index: the position of its opener, that of its closer if there is one, and those
of its tags. -/
structure CommentEntry where
  opener : Nat
  closer : Option Nat := none
  tags : List Nat := []
  deriving DecidableEq, Repr

structure Stream where
  tokens : List Token
  comments : List CommentEntry
  /-- The bracket that belongs to the one at a position. -/
  pairs : List (Nat × Nat)
  deriving DecidableEq, Repr

namespace Stream

/-- The doc comments of a token list whose first token has position `i`.  `current` is the comment that is
open there.  A comment that is open when another one opens stays without a closer. -/
def commentsFrom (i : Nat) (current : Option CommentEntry) : List Token → List CommentEntry
  | [] => current.toList
  | t :: ts =>
    match t.kind with
    | .docOpen => current.toList ++ commentsFrom (i + 1) (some ⟨i, none, []⟩) ts
    | .docTag =>
      commentsFrom (i + 1) (current.map fun c => { c with tags := c.tags ++ [i] }) ts
    | .docClose =>
      (current.map fun c => { c with closer := some i }).toList ++ commentsFrom (i + 1) none ts
    | _ => commentsFrom (i + 1) current ts

/-- The bracket pairs of a token list whose first token has position `i`.  `opened` holds the brackets that
are open there, the last one first, each with the kind that closes it.  A closing bracket that does not
close the last open one is passed over. -/
def pairsFrom (i : Nat) (opened : List (Nat × Kind)) : List Token → List (Nat × Nat)
  | [] => []
  | t :: ts =>
    match t.kind.closing? with
    | some k => pairsFrom (i + 1) ((i, k) :: opened) ts
    | none =>
      match opened with
      | (o, k) :: outer =>
        if k = t.kind then (o, i) :: pairsFrom (i + 1) outer ts else pairsFrom (i + 1) opened ts
      | [] => pairsFrom (i + 1) [] ts

/-- A token list with its index. -/
def ofTokens (tokens : List Token) : Stream where
  tokens := tokens
  comments := commentsFrom 0 none tokens
  pairs := (pairsFrom 0 [] tokens).flatMap fun p => [p, (p.2, p.1)]

variable (s : Stream)

def size : Nat := s.tokens.length

def kind? (pos : Nat) : Option Kind := s.tokens[pos]?.map Token.kind

/-- The first position, at or after `start`, of a token of one of the kinds. -/
def findFrom (kinds : List Kind) (start : Nat) : Option Nat :=
  ((s.tokens.drop start).findIdx? fun t => kinds.contains t.kind).map (start + ·)

/-- The positions at which doc comments open. -/
def openers : List Nat := s.comments.map CommentEntry.opener

def comment? (opener : Nat) : Option CommentEntry :=
  s.comments.find? fun c => c.opener == opener

def closer? (opener : Nat) : Option Nat := (s.comment? opener).bind CommentEntry.closer

def tags (opener : Nat) : List Nat := ((s.comment? opener).map CommentEntry.tags).getD []

/-- The bracket that belongs to the one at `pos`. -/
def matching? (pos : Nat) : Option Nat := s.pairs.lookup pos

/-- The tokens strictly between two positions, with their positions. -/
def between (lo hi : Nat) : List (Nat × Token) :=
  ((s.tokens.drop (lo + 1)).take (hi - (lo + 1))).zipIdx (lo + 1) |>.map fun (t, i) => (i, t)

end Stream
end DocLint
