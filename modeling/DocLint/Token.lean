import DocLint.Text.Position

/-!
# Tokens

A token is a kind, its text and where the text begins.  A `Piece` is a token that has not been
placed yet; placing a run of pieces one after another gives the tokens of the run.
-/
namespace DocLint

inductive Kind where
  | docOpen
  | docClose
  | docStar
  | docWhitespace
  | docNewline
  | docString
  | docTag
  | functionKeyword
  | classKeyword
  | identifier
  | openParen
  | closeParen
  | openBrace
  | closeBrace
  | openBracket
  | closeBracket
  | comma
  | semicolon
  | literal
  | whitespace
  | newline
  | other
  deriving DecidableEq, Repr, Inhabited

namespace Kind

/-- Part of a doc comment. -/
def isDoc : Kind → Bool
  | docOpen | docClose | docStar | docWhitespace | docNewline | docString | docTag => true
  | _ => false

/-- Blank, inside a doc comment or outside. -/
def isTrivia : Kind → Bool
  | whitespace | newline | docWhitespace | docNewline => true
  | _ => false

/-- The bracket that closes an opening bracket. -/
def closing? : Kind → Option Kind
  | openParen => some closeParen
  | openBrace => some closeBrace
  | openBracket => some closeBracket
  | _ => none

def isClosing : Kind → Bool
  | closeParen | closeBrace | closeBracket => true
  | _ => false

end Kind

structure Token where
  kind : Kind
  text : String
  start : Position
  deriving DecidableEq, Repr, Inhabited

/-- A kind and a text, not yet placed. -/
structure Piece where
  kind : Kind
  text : List Char
  deriving DecidableEq, Repr

namespace Piece

def token (p : Position) (piece : Piece) : Token := ⟨piece.kind, String.ofList piece.text, p⟩

/-- Pieces placed one after another, the first at `p`. -/
def place : Position → List Piece → List Token
  | _, [] => []
  | p, x :: xs => x.token p :: place (p.advance x.text) xs

/-- The text that a run of pieces covers. -/
def textOf (ps : List Piece) : List Char := ps.flatMap Piece.text

@[simp] theorem textOf_nil : textOf [] = [] := rfl

@[simp] theorem textOf_cons (p : Piece) (ps : List Piece) : textOf (p :: ps) = p.text ++ textOf ps := rfl

@[simp] theorem textOf_append (ps qs : List Piece) : textOf (ps ++ qs) = textOf ps ++ textOf qs := by
  simp [textOf]

theorem place_append (p : Position) (xs ys : List Piece) :
    place p (xs ++ ys) = place p xs ++ place (p.advance (textOf xs)) ys := by
  induction xs generalizing p with
  | nil => rfl
  | cons x xs ih => simp [place, ih, textOf, Position.advance_append]

end Piece
end DocLint
