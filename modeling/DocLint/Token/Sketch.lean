import DocLint.Text.Alphanumeric
import DocLint.Token.DocComment

/-!
# Sketched scripts

A script can be put together from parts: doc comments by their text or by their lines, code, and single
tokens of any kind.  Code is cut more plainly than a script is: into words, blanks and single characters.
-/
namespace DocLint.Sketch

open DocLint.Text

inductive Part where
  | doc (text : List Char)
  | docLines (lines : List (List Char))
  | code (text : List Char)
  | token (kind : Kind) (text : List Char)
  deriving DecidableEq, Repr

/-- A line of a doc comment in the usual layout. -/
def docLine (line : List Char) : List Char :=
  if line.isEmpty then " *\n".toList else " * ".toList ++ line ++ ['\n']

/-- A doc comment in the usual layout, one line each. -/
def docText (lines : List (List Char)) : List Char :=
  "/**\n".toList ++ lines.flatMap docLine ++ " */".toList

def isWordChar (c : Char) : Bool := isAlphanumeric c || c = '_' || c = '$'

/-- Blank that does not end a line. -/
def isInlineBlank (c : Char) : Bool := c != '\n' && isBlank c

def wordKind (word : List Char) : Kind :=
  if word = "function".toList then .functionKeyword
  else if word = "class".toList then .classKeyword
  else
    match word with
    | c :: _ => if c.isDigit then .literal else .identifier
    | [] => .identifier

/-- The kind of a character that is a piece of its own. -/
def symbolKind : Char → Kind
  | '\n' => .newline
  | '(' => .openParen
  | ')' => .closeParen
  | '\x7b' => .openBrace
  | '\x7d' => .closeBrace
  | '[' => .openBracket
  | ']' => .closeBracket
  | ',' => .comma
  | ';' => .semicolon
  | _ => .other

/-- The kind of the piece that starts with `c`, and how many further characters belong to it. -/
def measure (c : Char) (rest : List Char) : Kind × Nat :=
  if isInlineBlank c then (.whitespace, (rest.takeWhile isInlineBlank).length)
  else if isWordChar c then
    let word := rest.takeWhile isWordChar
    (wordKind (c :: word), word.length)
  else (symbolKind c, 0)

def codePieces : List Char → List Piece
  | [] => []
  | c :: cs =>
    let (kind, n) := measure c cs
    ⟨kind, c :: cs.take n⟩ :: codePieces (cs.drop n)
termination_by cs => cs.length
decreasing_by simp only [List.length_cons, List.length_drop]; omega

def Part.pieces : Part → List Piece
  | .doc text => DocComment.pieces text
  | .docLines lines => DocComment.pieces (docText lines)
  | .code text => codePieces text
  | .token kind text => [⟨kind, text⟩]

/-- The tokens of a script put together from parts. -/
def tokens (parts : List Part) : List Token := Piece.place .start (parts.flatMap Part.pieces)

end DocLint.Sketch
