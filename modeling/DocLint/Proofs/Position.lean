import Mathlib.Data.List.Induction
import DocLint.Text
import DocLint.Text.Position

/-!
# Positions as counts

A position is reached by walking over a text, and its three numbers are counts on that text: line feeds,
characters since the last line feed, and bytes.  Walking on always leads to a different place, so line and
column together name one place of a text.
-/
namespace DocLint.Position

open DocLint.Text

/-- The characters after the last line feed. -/
def lastLine (cs : List Char) : List Char := (cs.reverse.takeWhile (· != '\n')).reverse

theorem lastLine_concat (cs : List Char) (c : Char) :
    lastLine (cs ++ [c]) = if c = '\n' then [] else lastLine cs ++ [c] := by
  by_cases h : c = '\n' <;> simp [lastLine, h]

theorem line_advance (p : Position) (cs : List Char) :
    (p.advance cs).line = p.line + cs.count '\n' := by
  induction cs generalizing p with
  | nil => rfl
  | cons c cs ih =>
    rw [advance_cons, ih, List.count_cons]
    by_cases h : c = '\n'
    · simp [next, h]; omega
    · simp [next, h]

theorem offset_advance (p : Position) (cs : List Char) :
    (p.advance cs).offset = p.offset + byteLength cs := by
  induction cs generalizing p with
  | nil => rfl
  | cons c cs ih =>
    have hn : (p.next c).offset = p.offset + c.utf8Size := by
      by_cases h : c = '\n' <;> simp [next, h]
    rw [advance_cons, ih, hn, byteLength_cons, Nat.add_assoc]

/-- Without a line feed every character is a column. -/
theorem column_advance_of_notMem {cs : List Char} (h : '\n' ∉ cs) (p : Position) :
    (p.advance cs).column = p.column + cs.length := by
  induction cs generalizing p with
  | nil => rfl
  | cons c cs ih =>
    have hc : c ≠ '\n' := fun hc => h (by simp [hc])
    rw [advance_cons, ih fun hcs => h (List.mem_cons_of_mem c hcs)]
    simp [next, hc]
    omega

/-- The column counts from the last line feed, or from the beginning of the text. -/
theorem column_start_advance (cs : List Char) :
    (start.advance cs).column = 1 + (lastLine cs).length := by
  induction cs using List.reverseRecOn with
  | nil => rfl
  | append_singleton cs c ih =>
    rw [advance_append, lastLine_concat]
    by_cases h : c = '\n'
    · simp [next, h]
    · simp [next, h, ih]; omega

/-- A longer walk ends at a later place. -/
theorem eq_nil_of_advance_eq {p : Position} {cs : List Char}
    (hl : (p.advance cs).line = p.line) (hc : (p.advance cs).column = p.column) : cs = [] := by
  have hn : '\n' ∉ cs := by
    rw [line_advance] at hl
    exact List.count_eq_zero.1 (by omega)
  rw [column_advance_of_notMem hn] at hc
  exact List.length_eq_zero_iff.1 (by omega)

/-- Of two walks over the same text, line and column tell how far each of them went. -/
theorem eq_of_isPrefix {a b text : List Char} (ha : a <+: text) (hb : b <+: text)
    (hl : (start.advance a).line = (start.advance b).line)
    (hc : (start.advance a).column = (start.advance b).column) : a = b := by
  rcases List.prefix_or_prefix_of_prefix ha hb with ⟨d, rfl⟩ | ⟨d, rfl⟩
  · rw [advance_append] at hl hc
    rw [eq_nil_of_advance_eq hl.symm hc.symm, List.append_nil]
  · rw [advance_append] at hl hc
    rw [eq_nil_of_advance_eq hl hc, List.append_nil]

end DocLint.Position
