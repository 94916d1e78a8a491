import DocLint.Stream

/-!
# Comment blocks

A block is what a doc comment says: the marks at the beginning of its lines, its prose, and its tags, each
tag with the text that follows it.  Text before the first tag is prose; text after it belongs to the nearest
tag before.
-/
namespace DocLint

structure Prose where
  pos : Nat
  text : String
  deriving DecidableEq, Repr

structure BlockTag where
  pos : Nat
  name : String
  body : String
  deriving DecidableEq, Repr

structure Block where
  opener : Nat
  closer : Nat
  marks : List Nat := []
  prose : List Prose := []
  tags : List BlockTag := []
  deriving DecidableEq, Repr

/-- A doc comment that is never closed. -/
structure UnclosedComment where
  opener : Nat
  deriving DecidableEq, Repr

def UnclosedComment.message (e : UnclosedComment) : String :=
  s!"doc comment opened at token {e.opener} is never closed"

namespace BlockTag

/-- A tag with more text, set off by a space if there was text before. -/
def extend (t : BlockTag) (text : String) : BlockTag :=
  { t with body := if t.body.isEmpty then text else t.body ++ " " ++ text }

/-- Text for the last of some tags, or nothing if there is none. -/
def extendLast : List BlockTag → String → List BlockTag
  | [], _ => []
  | [t], text => [t.extend text]
  | t :: ts, text => t :: extendLast ts text

end BlockTag

namespace Block

/-- A block with one more token.  Only the tags that the index lists count as such. -/
def read (tagPositions : List Nat) (b : Block) : Nat × Token → Block
  | (pos, t) =>
    match t.kind with
    | .docStar => { b with marks := b.marks ++ [pos] }
    | .docTag =>
      if tagPositions.contains pos then { b with tags := b.tags ++ [⟨pos, t.text, ""⟩] } else b
    | .docString =>
      if b.tags.isEmpty then { b with prose := b.prose ++ [⟨pos, t.text⟩] }
      else { b with tags := BlockTag.extendLast b.tags t.text }
    | _ => b

/-- The block of the doc comment that opens at `opener`. -/
def extract (s : Stream) (opener : Nat) : Except UnclosedComment Block :=
  match s.closer? opener with
  | some closer =>
    if opener < closer ∧ closer < s.size then
      .ok ((s.between opener closer).foldl (read (s.tags opener)) { opener, closer })
    else .error ⟨opener⟩
  | none => .error ⟨opener⟩

def tagCount (b : Block) (name : String) : Nat := b.tags.countP fun t => t.name == name

def hasTag (b : Block) (name : String) : Bool := b.tags.any fun t => t.name == name

/-- The number of marks strictly between two positions. -/
def marksBetween (b : Block) (lo hi : Nat) : Nat := b.marks.countP fun m => lo < m && m < hi

end Block
end DocLint
