import DocLint.Token.DocComment

/-!
# Script text as slices

A script is cut into slices, each the longest lexeme that begins where the last one ended.  `measure`
says how far a lexeme reaches: from its first character and the characters after it, it gives the class
of the slice and the number of further characters it takes.  Nothing is lost, because a slice is taken
from the front of the text and the next one is read from the remainder.
-/
namespace DocLint

/-- What becomes of a slice: it is one token, it is a doc comment, or it is dropped. -/
inductive SliceClass where
  | token (kind : Kind)
  | doc
  | dropped
  deriving DecidableEq, Repr

structure Slice where
  cls : SliceClass
  text : List Char
  deriving DecidableEq, Repr

namespace Slice

/-- Blank that does not end a line. -/
def isInlineBlank (c : Char) : Bool := c = ' ' || c = '\t' || c = '\r' || c = '\x0c'

def isWordStart (c : Char) : Bool := c.isAlpha || c = '_' || c = '$'

def isWordChar (c : Char) : Bool := c.isAlphanum || c = '_' || c = '$'

def isQuote (c : Char) : Bool := c = '\x22' || c = '\x27' || c = '\x60'

def isHexChar (c : Char) : Bool :=
  c.isDigit || ('a' ≤ c && c ≤ 'f') || ('A' ≤ c && c ≤ 'F') || c = '_'

/-- Two keywords matter; every other word is an identifier. -/
def wordKind (word : List Char) : Kind :=
  if word = "function".toList then .functionKeyword
  else if word = "class".toList then .classKeyword
  else .identifier

/-- The kind of a character that is a token of its own. -/
def symbolKind : Char → Kind
  | '\n' => .newline
  | '(' => .openParen
  | ')' => .closeParen
  | '\x7b' => .openBrace
  | '\x7d' => .closeBrace
  | '[' => .openBracket
  | ']' => .closeBracket
  | ',' => .comma
  | ';' => .semicolon
  | _ => .other

/-- The length of a comment's remainder through the first `*/`, or to the end of the text. -/
def closeLength : List Char → Nat
  | '*' :: '/' :: _ => 2
  | _ :: cs => closeLength cs + 1
  | [] => 0

/-- The items of a literal after its opening quote `q`: how many characters they take, and whether the
closing quote follows.  An item is a character other than the quote and the backslash, or a backslash
and a character other than a line feed.  Only a literal in backquotes may hold a line feed. -/
def literalItems (q : Char) : List Char → Nat × Bool
  | [] => (0, false)
  | '\\' :: c :: cs =>
    if c = '\n' then (0, false)
    else
      let (n, closed) := literalItems q cs
      (n + 2, closed)
  | c :: cs =>
    if c = q then (0, true)
    else if c = '\\' || (c = '\n' && q != '\x60') then (0, false)
    else
      let (n, closed) := literalItems q cs
      (n + 1, closed)

/-- A literal with its closing quote; one that cannot complete is no literal but what was read of it. -/
def measureLiteral (q : Char) (rest : List Char) : SliceClass × Nat :=
  match literalItems q rest with
  | (n, true) => (.token .literal, n + 1)
  | (n, false) => (.token .other, n)

def digitCount (cs : List Char) : Nat := (cs.takeWhile Char.isDigit).length

/-- A point and digits, if there is at least one digit. -/
def fractionLength : List Char → Nat
  | '.' :: cs => if digitCount cs = 0 then 0 else digitCount cs + 1
  | _ => 0

/-- Digits after an exponent letter and its sign, which takes `before` characters. -/
def exponentDigits (before : Nat) (cs : List Char) : Nat :=
  if digitCount cs = 0 then 0 else before + digitCount cs

def exponentLength : List Char → Nat
  | c :: cs =>
    if c = 'e' || c = 'E' then
      match cs with
      | s :: ds => if s = '+' || s = '-' then exponentDigits 2 ds else exponentDigits 1 (s :: ds)
      | [] => 0
    else 0
  | [] => 0

/-- What a decimal number takes after its first digit. -/
def decimalLength (rest : List Char) : Nat :=
  let whole := (rest.takeWhile fun c => c.isDigit || c = '_').length
  let fraction := fractionLength (rest.drop whole)
  whole + fraction + exponentLength (rest.drop (whole + fraction))

/-- What a hexadecimal number takes after its zero; nothing if it is not one. -/
def hexLength : List Char → Nat
  | x :: cs =>
    let n := (cs.takeWhile isHexChar).length
    if (x = 'x' || x = 'X') && n != 0 then n + 1 else 0
  | [] => 0

def numberLength (c : Char) (rest : List Char) : Nat :=
  if c = '0' then max (hexLength rest) (decimalLength rest) else decimalLength rest

/-- After a `/`: a comment to the end of the line, an empty comment, a doc comment, a plain comment, or
the character alone. -/
def measureSlash : List Char → SliceClass × Nat
  | '/' :: cs => (.dropped, (cs.takeWhile (· != '\n')).length + 1)
  | '*' :: '*' :: '/' :: _ => (.dropped, 3)
  | '*' :: '*' :: cs => (.doc, closeLength cs + 2)
  | '*' :: cs => (.dropped, closeLength cs + 1)
  | _ => (.token .other, 0)

/-- The class of the lexeme that starts with `c`, and how many characters of `rest` belong to it. -/
def measure (c : Char) (rest : List Char) : SliceClass × Nat :=
  if c = '/' then measureSlash rest
  else if isInlineBlank c then (.token .whitespace, (rest.takeWhile isInlineBlank).length)
  else if isQuote c then measureLiteral c rest
  else if c.isDigit then (.token .literal, numberLength c rest)
  else if isWordStart c then
    let word := rest.takeWhile isWordChar
    (.token (wordKind (c :: word)), word.length)
  else (.token (symbolKind c), 0)

/-- The slices of a text, in order. -/
def ofText : List Char → List Slice
  | [] => []
  | c :: cs =>
    let (cls, n) := measure c cs
    ⟨cls, c :: cs.take n⟩ :: ofText (cs.drop n)
termination_by cs => cs.length
decreasing_by simp only [List.length_cons, List.length_drop]; omega

/-- The slices of a text make up the text. -/
theorem flatMap_text_ofText (cs : List Char) : (ofText cs).flatMap Slice.text = cs := by
  fun_induction ofText cs with
  | case1 => rfl
  | case2 c cs cls n h ih => simp [ih]

/-- The pieces that a slice contributes. -/
def pieces (s : Slice) : List Piece :=
  match s.cls with
  | .token kind => [⟨kind, s.text⟩]
  | .doc => DocComment.pieces s.text
  | .dropped => []

/-- The tokens of a run of slices, the first of which begins at `p`. -/
def layout : Position → List Slice → List Token
  | _, [] => []
  | p, s :: ss => Piece.place p s.pieces ++ layout (p.advance s.text) ss

end Slice

/-- The tokens of a script. -/
def lex (source : List Char) : List Token := Slice.layout .start (Slice.ofText source)

/-- A byte order mark at the very start is no part of the script. -/
def withoutByteOrderMark : List Char → List Char
  | '\uFEFF' :: cs => cs
  | cs => cs

end DocLint
