/-!
# Positions in a text

Lines and columns start at one, columns count characters, offsets count UTF-8 bytes from zero.
-/
namespace DocLint

structure Position where
  line : Nat
  column : Nat
  offset : Nat
  deriving DecidableEq, Repr, Inhabited

namespace Position

/-- Where every text begins. -/
def start : Position := ⟨1, 1, 0⟩

/-- The position after one character.  Only a line feed starts a new line. -/
def next (p : Position) (c : Char) : Position :=
  if c = '\n' then ⟨p.line + 1, 1, p.offset + c.utf8Size⟩
  else ⟨p.line, p.column + 1, p.offset + c.utf8Size⟩

/-- The position after a text. -/
def advance (p : Position) (text : List Char) : Position := text.foldl next p

@[simp] theorem advance_nil (p : Position) : p.advance [] = p := rfl

@[simp] theorem advance_cons (p : Position) (c : Char) (cs : List Char) :
    p.advance (c :: cs) = (p.next c).advance cs := rfl

theorem advance_append (p : Position) (a b : List Char) :
    p.advance (a ++ b) = (p.advance a).advance b := by
  simp [advance]

end Position
end DocLint
