import DocLint.Text.Blank
import DocLint.Block

/-!
# Tag names and their occurrences

A tag name is `@` and at least one more character, without blanks.  `Occurrences` lists the tags that were
seen, in the order of their names, each with how often and where first.
-/
namespace DocLint

def isTagName (name : List Char) : Bool :=
  match name with
  | '@' :: c :: cs => !(c :: cs).any Text.isBlank
  | _ => false

structure TagName where
  text : String
  valid : isTagName text.toList = true
  deriving DecidableEq, Repr

def TagName.ofText? (s : String) : Option TagName :=
  if h : isTagName s.toList = true then some ⟨s, h⟩ else none

/-- Names as they stand in a message. -/
def TagName.listText (names : List TagName) : String := ", ".intercalate (names.map TagName.text)

structure Occurrence where
  tag : String
  count : Nat
  first : Nat
  deriving DecidableEq, Repr

abbrev Occurrences := List Occurrence

namespace Occurrences

/-- One more occurrence of a tag.  Only the first one of each tag sets the position. -/
def record (tag : String) (pos : Nat) : Occurrences → Occurrences
  | [] => [⟨tag, 1, pos⟩]
  | o :: os =>
    match compare tag o.tag with
    | .lt => ⟨tag, 1, pos⟩ :: o :: os
    | .eq => { o with count := o.count + 1 } :: os
    | .gt => o :: record tag pos os

def find? (os : Occurrences) (tag : String) : Option Occurrence :=
  List.find? (fun o => o.tag == tag) os

def contains (os : Occurrences) (tag : String) : Bool := (os.find? tag).isSome

def count (os : Occurrences) (tag : String) : Nat := ((os.find? tag).map Occurrence.count).getD 0

def first? (os : Occurrences) (tag : String) : Option Nat := (os.find? tag).map Occurrence.first

/-- The occurrences of those tags of a block that are relevant. -/
def ofBlock (relevant : List String) (b : Block) : Occurrences :=
  b.tags.foldl (fun os t => if relevant.contains t.name then os.record t.name t.pos else os) []

end Occurrences
end DocLint
