import DocLint.Text

/-!
# Lines of bytes

A file of bytes is cut at its line feeds, and each line is read as text by itself.
-/
namespace DocLint.Text

/-- Cuts bytes at every line feed: `n` line feeds give `n + 1` parts. -/
def cutBytes : List UInt8 → List (List UInt8)
  | [] => [[]]
  | b :: bs =>
    if b = 0x0A then [] :: cutBytes bs
    else
      match cutBytes bs with
      | [] => [[b]]
      | l :: ls => (b :: l) :: ls

/-- A line without the carriage return at its end. -/
def dropReturn (line : List UInt8) : List UInt8 :=
  if line.getLast? = some 0x0D then line.dropLast else line

/-- The lines of some bytes.  A carriage return before a line feed belongs to it; after the last line feed there
is one more line only if anything follows. -/
def byteLines (bs : List UInt8) : List (List UInt8) :=
  let parts := cutBytes bs
  parts.dropLast.map dropReturn ++ parts.getLast?.toList.filter fun l => !l.isEmpty

/-- The lines of a file as texts; `none` stands for a line that is no text. -/
def textLines (content : ByteArray) : List (Option (List Char)) :=
  (byteLines content.toList).map fun l => (String.fromUTF8? ⟨l.toArray⟩).map String.toList

end DocLint.Text
