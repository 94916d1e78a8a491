import DocLint.Text
import DocLint.Text.Blank
import DocLint.Token

/-!
# The pieces of a doc comment

A doc comment is cut line by line: leading blanks, the mark `*` (on every line but the first), blanks,
then a tag with the text after it, or prose.  Three notions of blank meet here: only space, tab and
carriage return count before a text, any blank ends a tag, and any blank is trimmed at the end of a line.
-/
namespace DocLint.DocComment

open DocLint.Text

/-- Blank before a mark, a tag or a text. -/
def isLead (c : Char) : Bool := c = ' ' || c = '\t' || c = '\r'

def opening : List Char := ['/', '*', '*']

def closing : List Char := ['*', '/']

/-- A run of blanks is a piece unless it is empty. -/
def blanks (t : List Char) : List Piece := if t.isEmpty then [] else [⟨.docWhitespace, t⟩]

/-- Prose up to its last character that is not blank, then the blanks. -/
def textPieces (t : List Char) : List Piece :=
  let content := trimEnd t
  (if content.isEmpty then [] else [⟨.docString, content⟩]) ++ blanks (t.drop content.length)

/-- An optional tag, which runs to the first blank, and the text after it. -/
def tagPieces : List Char → List Piece
  | '@' :: t =>
    let rest := t.dropWhile fun c => !isBlank c
    ⟨.docTag, '@' :: t.takeWhile fun c => !isBlank c⟩ ::
      (blanks (rest.takeWhile isLead) ++ textPieces (rest.dropWhile isLead))
  | t => textPieces t

/-- An optional mark, and what follows it. -/
def markPieces (marked : Bool) (t : List Char) : List Piece :=
  match marked, t with
  | true, '*' :: t =>
    ⟨.docStar, ['*']⟩ :: (blanks (t.takeWhile isLead) ++ tagPieces (t.dropWhile isLead))
  | _, t => tagPieces t

/-- One line.  A mark is looked for only if `marked` is set. -/
def linePieces (marked : Bool) (line : List Char) : List Piece :=
  blanks (line.takeWhile isLead) ++ markPieces marked (line.dropWhile isLead)

/-- The lines after the first, each with the line feed before it. -/
def furtherLines (lines : List (List Char)) : List Piece :=
  lines.flatMap fun l => ⟨.docNewline, ['\n']⟩ :: linePieces true l

/-- What stands between the opening and the closing. -/
def bodyPieces (body : List Char) : List Piece :=
  match splitOn '\n' body with
  | [] => []
  | l :: ls => linePieces false l ++ furtherLines ls

/-- The body of what follows the opening, and whether the comment is closed. -/
def bodyOf (inner : List Char) : List Char × Bool :=
  match dropEnd? closing inner with
  | some body => (body, true)
  | none => (inner, false)

/-- The pieces of a whole comment.  A text that does not open as a doc comment is one piece. -/
def pieces (text : List Char) : List Piece :=
  match dropStart? opening text with
  | none => [⟨.other, text⟩]
  | some inner =>
    let (body, closed) := bodyOf inner
    ⟨.docOpen, opening⟩ :: bodyPieces body ++ if closed then [⟨.docClose, closing⟩] else []

open Piece (textOf textOf_append)

@[simp] theorem textOf_blanks (t : List Char) : textOf (blanks t) = t := by
  cases t <;> simp [blanks]

@[simp] theorem textOf_textPieces (t : List Char) : textOf (textPieces t) = t := by
  have h : textOf (if (trimEnd t).isEmpty then [] else [⟨.docString, trimEnd t⟩]) = trimEnd t := by
    cases trimEnd t <;> simp
  rw [textPieces, textOf_append, h, textOf_blanks, trimEnd_append_drop]

@[simp] theorem textOf_tagPieces (t : List Char) : textOf (tagPieces t) = t := by
  unfold tagPieces
  split <;> simp

@[simp] theorem textOf_markPieces (marked : Bool) (t : List Char) : textOf (markPieces marked t) = t := by
  unfold markPieces
  split <;> simp

@[simp] theorem textOf_linePieces (marked : Bool) (t : List Char) : textOf (linePieces marked t) = t := by
  simp [linePieces]

@[simp] theorem textOf_furtherLines (ls : List (List Char)) :
    textOf (furtherLines ls) = ls.flatMap (['\n'] ++ ·) := by
  induction ls with
  | nil => rfl
  | cons l ls ih => simp_all [furtherLines]

theorem textOf_bodyPieces (body : List Char) : textOf (bodyPieces body) = body := by
  have h := joinWith_splitOn '\n' body
  unfold bodyPieces
  split
  · next hs => exact absurd hs (splitOn_ne_nil _ _)
  · next l ls hs => rw [hs, joinWith_cons] at h; simpa using h

theorem bodyOf_append (inner : List Char) :
    (bodyOf inner).1 ++ (if (bodyOf inner).2 then closing else []) = inner := by
  cases h : dropEnd? closing inner with
  | none => simp [bodyOf, h]
  | some body => simp only [bodyOf, h]; exact (eq_append_of_dropEnd? h).symm

/-- The pieces of a doc comment make up the comment. -/
theorem textOf_pieces (text : List Char) : textOf (pieces text) = text := by
  unfold pieces
  split
  · simp
  · next inner h =>
    have hb := bodyOf_append inner
    rw [eq_append_of_dropStart? h]
    cases hc : (bodyOf inner).2 <;> simp [hc] at hb <;> simp [hc, hb, textOf_bodyPieces]

end DocLint.DocComment
