/-!
# Blank characters

The characters with the Unicode property `White_Space`, and trimming by that property.
-/
namespace DocLint.Text

/-- The property `White_Space`. -/
def isBlank (c : Char) : Bool :=
  let n := c.toNat
  (9 ≤ n && n ≤ 13) || n == 0x20 || n == 0x85 || n == 0xA0 || n == 0x1680 ||
    (0x2000 ≤ n && n ≤ 0x200A) || n == 0x2028 || n == 0x2029 || n == 0x202F || n == 0x205F ||
    n == 0x3000

/-- A text without its trailing blanks. -/
def trimEnd (cs : List Char) : List Char := (cs.reverse.dropWhile isBlank).reverse

/-- A text without its leading and trailing blanks. -/
def trim (cs : List Char) : List Char := trimEnd (cs.dropWhile isBlank)

theorem trimEnd_isPrefix (cs : List Char) : trimEnd cs <+: cs := by
  rw [← List.reverse_suffix]
  simpa [trimEnd] using List.dropWhile_suffix isBlank

theorem trimEnd_append_drop (cs : List Char) : trimEnd cs ++ cs.drop (trimEnd cs).length = cs := by
  rw [List.prefix_iff_eq_append.1 (trimEnd_isPrefix cs)]

end DocLint.Text
