import DocLint.Proofs.Cut
import DocLint.Proofs.Outline
import DocLint.Token.Sketch

/-!
# Comments by their lines

A doc comment in the usual layout is cut into its lines again, and each line gives one mark and at most one tag or
text.  So the outline of such a comment can be read off its lines, one by one.
-/
namespace DocLint

namespace Text

theorem dropStart?_append (start rest : List Char) : dropStart? start (start ++ rest) = some rest := by
  induction start with
  | nil => rfl
  | cons c start ih => simp [dropStart?, ih]

theorem dropEnd?_append (rest ending : List Char) : dropEnd? ending (rest ++ ending) = some rest := by
  rw [dropEnd?, List.reverse_append, dropStart?_append, Option.map_some, List.reverse_reverse]

/-- Lines that were put together are found again. -/
theorem splitOn_lines {sep : Char} {ls : List (List Char)} {last : List Char} (h : ∀ l ∈ ls, sep ∉ l)
    (hlast : sep ∉ last) : splitOn sep (ls.flatMap (· ++ [sep]) ++ last) = ls ++ [last] := by
  induction ls with
  | nil => exact splitOn_of_notMem hlast
  | cons l ls ih =>
    have hl : sep ∉ l := h l (by simp)
    rw [List.flatMap_cons, List.append_assoc, List.append_assoc, List.singleton_append, splitOn_append hl,
      ih fun m hm => h m (List.mem_cons_of_mem l hm), List.cons_append]

end Text

namespace DocComment

open DocLint.Text

theorem isBlank_of_isLead {c : Char} (h : isLead c = true) : isBlank c = true := by
  simp only [isLead, Bool.or_eq_true, decide_eq_true_eq] at h
  rcases h with (rfl | rfl) | rfl <;> decide

/-- A line with its mark. -/
def markedLine (l : List Char) : List Char := if l.isEmpty then [' ', '*'] else ' ' :: '*' :: ' ' :: l

theorem docLine_eq (l : List Char) : Sketch.docLine l = markedLine l ++ ['\n'] := by
  cases l with
  | nil => rfl
  | cons c l => simp [Sketch.docLine, markedLine]

/-- What stands between the opening and the closing of a comment in the usual layout. -/
def docInner (lines : List (List Char)) : List Char := '\n' :: (lines.flatMap Sketch.docLine ++ [' '])

theorem docText_eq (lines : List (List Char)) :
    Sketch.docText lines = opening ++ (docInner lines ++ closing) := by
  have hopen : "/**\n".toList = opening ++ ['\n'] := by decide
  have hclose : " */".toList = ' ' :: closing := by decide
  simp [Sketch.docText, docInner, hopen, hclose]

/-- The pieces between the opening and the closing. -/
def innerPieces (lines : List (List Char)) : List Piece := furtherLines (lines.map markedLine ++ [[' ']])

theorem notMem_markedLine {l : List Char} (h : '\n' ∉ l) : '\n' ∉ markedLine l := by
  unfold markedLine
  split <;> simp [h]

theorem pieces_docText {lines : List (List Char)} (h : ∀ l ∈ lines, '\n' ∉ l) :
    pieces (Sketch.docText lines) = ⟨.docOpen, opening⟩ :: (innerPieces lines ++ [⟨.docClose, closing⟩]) := by
  have hlines : ∀ l ∈ lines.map markedLine, '\n' ∉ l := by
    intro l hl
    obtain ⟨m, hm, rfl⟩ := List.mem_map.1 hl
    exact notMem_markedLine (h m hm)
  have hbody : lines.flatMap Sketch.docLine = (lines.map markedLine).flatMap (· ++ ['\n']) := by
    rw [List.flatMap_map, funext docLine_eq]
  have hsplit : splitOn '\n' (docInner lines) = [] :: (lines.map markedLine ++ [[' ']]) := by
    rw [docInner, hbody, ← splitOn_lines hlines (by decide)]
    exact splitOn_append (a := []) (by simp) _
  rw [docText_eq, pieces, dropStart?_append]
  simp only [bodyOf, dropEnd?_append, bodyPieces, hsplit, innerPieces]
  rfl

/-! ## The outline of a line -/

/-- The kinds of the pieces inside a comment. -/
def innerKinds : List Kind := [.docStar, .docWhitespace, .docNewline, .docString, .docTag]

theorem kind_blanks {t : List Char} {p : Piece} (h : p ∈ blanks t) : p.kind ∈ innerKinds := by
  unfold blanks at h
  split at h
  · cases h
  · rw [List.mem_singleton.1 h]
    simp [innerKinds]

theorem kind_textPieces {t : List Char} {p : Piece} (h : p ∈ textPieces t) : p.kind ∈ innerKinds := by
  rcases List.mem_append.1 h with h | h
  · split at h
    · cases h
    · rw [List.mem_singleton.1 h]
      simp [innerKinds]
  · exact kind_blanks h

theorem kind_tagPieces {t : List Char} {p : Piece} (h : p ∈ tagPieces t) : p.kind ∈ innerKinds := by
  unfold tagPieces at h
  split at h
  · rcases List.mem_cons.1 h with rfl | h
    · simp [innerKinds]
    · rcases List.mem_append.1 h with h | h
      · exact kind_blanks h
      · exact kind_textPieces h
  · exact kind_textPieces h

theorem kind_linePieces {marked : Bool} {t : List Char} {p : Piece} (h : p ∈ linePieces marked t) :
    p.kind ∈ innerKinds := by
  rcases List.mem_append.1 h with h | h
  · exact kind_blanks h
  · unfold markPieces at h
    split at h
    · rcases List.mem_cons.1 h with rfl | h
      · simp [innerKinds]
      · rcases List.mem_append.1 h with h | h
        · exact kind_blanks h
        · exact kind_tagPieces h
    · exact kind_tagPieces h

theorem kind_innerPieces {lines : List (List Char)} {p : Piece} (h : p ∈ innerPieces lines) :
    p.kind ∈ innerKinds := by
  obtain ⟨l, -, h⟩ := List.mem_flatMap.1 h
  rcases List.mem_cons.1 h with rfl | h
  · simp [innerKinds]
  · exact kind_linePieces h

/-- The name of the tag with which a line begins. -/
def tagName? (l : List Char) : Option (List Char) :=
  match l.dropWhile isLead with
  | '@' :: t => some ('@' :: t.takeWhile fun c => !isBlank c)
  | _ => none

/-- Has a line anything but blanks? -/
def hasText (l : List Char) : Bool := !(trimEnd (l.dropWhile isLead)).isEmpty

/-- What follows the mark of a line. -/
def contentPieces (l : List Char) : List Piece :=
  blanks ((if l.isEmpty then [] else ' ' :: l).takeWhile isLead) ++ tagPieces (l.dropWhile isLead)

theorem linePieces_markedLine (l : List Char) : linePieces true (markedLine l) =
    [⟨.docWhitespace, [' ']⟩, ⟨.docStar, ['*']⟩] ++ contentPieces l := by
  cases l with
  | nil => rfl
  | cons c l =>
    have hlead : isLead ' ' = true := by decide
    have hmark : isLead '*' = false := by decide
    simp [markedLine, linePieces, markPieces, contentPieces, blanks, hlead, hmark]

open Block (tagOutline proseOutline marksIn hasTagIn tagOutline_append proseOutline_append)

/-- What some pieces add to an outline, if `n` marks stand before them: `k` marks, tags and lines of prose. -/
structure Outlined (ps : List Piece) (n k : Nat) (us : List (Nat × String)) (a : List Nat) : Prop where
  marks : marksIn ps = k
  tags : tagOutline n ps = us
  prose : proseOutline n ps = a
  tagged : hasTagIn ps = !us.isEmpty

theorem Outlined.append {ps qs : List Piece} {n k m : Nat} {us vs : List (Nat × String)} {a b : List Nat}
    (hp : Outlined ps n k us a) (hq : Outlined qs (n + k) m vs b) :
    Outlined (ps ++ qs) n (k + m) (us ++ vs) (a ++ if us.isEmpty then b else []) where
  marks := by
    have h : marksIn (ps ++ qs) = marksIn ps + marksIn qs := List.countP_append
    rw [h, hp.marks, hq.marks]
  tags := by rw [tagOutline_append, hp.tags, hp.marks, hq.tags]
  prose := by
    rw [proseOutline_append, hp.prose, hp.marks, hq.prose, hp.tagged]
    cases us <;> rfl
  tagged := by
    have h : hasTagIn (ps ++ qs) = (hasTagIn ps || hasTagIn qs) := List.any_append
    rw [h, hp.tagged, hq.tagged]
    cases us <;> rfl

theorem outlined_blanks (t : List Char) (n : Nat) : Outlined (blanks t) n 0 [] [] := by
  unfold blanks
  split <;> exact ⟨rfl, rfl, rfl, rfl⟩

theorem outlined_textPieces (t : List Char) (n : Nat) :
    Outlined (textPieces t) n 0 [] (if (trimEnd t).isEmpty then [] else [n]) := by
  have hs : Outlined (if (trimEnd t).isEmpty then [] else [⟨.docString, trimEnd t⟩]) n 0 []
      (if (trimEnd t).isEmpty then [] else [n]) := by
    split <;> exact ⟨rfl, rfl, rfl, rfl⟩
  have h := hs.append (outlined_blanks (t.drop (trimEnd t).length) (n + 0))
  simpa [textPieces] using h

/-- The tag with which a line begins, after `n` lines. -/
def lineTag (n : Nat) (l : List Char) : List (Nat × String) :=
  ((tagName? l).map fun name => (n + 1, String.ofList name)).toList

/-- The line of a text that is no tag, after `n` lines. -/
def lineProse (n : Nat) (l : List Char) : List Nat :=
  if (tagName? l).isNone && hasText l then [n + 1] else []

theorem tagName?_of_at {l t : List Char} (h : l.dropWhile isLead = '@' :: t) :
    tagName? l = some ('@' :: t.takeWhile fun c => !isBlank c) := by
  simp [tagName?, h]

theorem tagName?_of_ne {l t : List Char} {c : Char} (h : l.dropWhile isLead = c :: t) (hc : c ≠ '@') :
    tagName? l = none := by
  rw [tagName?, h]
  split
  · next heq => exact absurd (List.cons.inj heq).1 hc
  · rfl

theorem outlined_tagPieces (l : List Char) (n : Nat) :
    Outlined (tagPieces (l.dropWhile isLead)) (n + 1) 0 (lineTag n l) (lineProse n l) := by
  cases hd : l.dropWhile isLead with
  | nil =>
    have hn : tagName? l = none := by rw [tagName?, hd]
    have ht : hasText l = false := by rw [hasText, hd]; rfl
    simp only [lineTag, lineProse, hn, ht]
    exact ⟨rfl, rfl, rfl, rfl⟩
  | cons c t =>
    by_cases hc : c = '@'
    · subst hc
      have htag : Outlined [⟨.docTag, '@' :: t.takeWhile fun c => !isBlank c⟩] (n + 1) 0
          [(n + 1, String.ofList ('@' :: t.takeWhile fun c => !isBlank c))] [] := ⟨rfl, rfl, rfl, rfl⟩
      have hrest := (outlined_blanks ((t.dropWhile fun c => !isBlank c).takeWhile isLead) (n + 1)).append
        (outlined_textPieces ((t.dropWhile fun c => !isBlank c).dropWhile isLead) (n + 1 + 0))
      simpa [tagPieces, lineTag, lineProse, tagName?_of_at hd] using htag.append hrest
    · have hp : tagPieces (c :: t) = textPieces (c :: t) := by
        rw [tagPieces]
        intro _ h
        exact hc (List.cons.inj h).1
      have h := outlined_textPieces (c :: t) (n + 1)
      rw [hp]
      simpa [lineTag, lineProse, tagName?_of_ne hd hc, hasText, hd] using h

theorem outlined_contentPieces (l : List Char) (n : Nat) :
    Outlined (contentPieces l) (n + 1) 0 (lineTag n l) (lineProse n l) := by
  have hb := outlined_blanks ((if l.isEmpty then [] else ' ' :: l).takeWhile isLead) (n + 1)
  have h := hb.append (outlined_tagPieces l n)
  simpa [contentPieces] using h

/-- The pieces of a line with its mark, and the line feed before it. -/
theorem outlined_line (l : List Char) (n : Nat) :
    Outlined (⟨.docNewline, ['\n']⟩ :: linePieces true (markedLine l)) n 1 (lineTag n l) (lineProse n l) := by
  have hmark : Outlined [⟨.docNewline, ['\n']⟩, ⟨.docWhitespace, [' ']⟩, ⟨.docStar, ['*']⟩] n 1 [] [] :=
    ⟨rfl, rfl, rfl, rfl⟩
  have h := hmark.append (outlined_contentPieces l n)
  rw [linePieces_markedLine]
  simpa using h

/-- The tags of some lines, the first of which comes after `n` lines. -/
def lineTags : Nat → List (List Char) → List (Nat × String)
  | _, [] => []
  | n, l :: ls => lineTag n l ++ lineTags (n + 1) ls

/-- The lines of prose before the first tag. -/
def lineProses : Nat → List (List Char) → List Nat
  | _, [] => []
  | n, l :: ls => lineProse n l ++ if (tagName? l).isSome then [] else lineProses (n + 1) ls

theorem outlined_innerPieces (lines : List (List Char)) (n : Nat) :
    Outlined (innerPieces lines) n lines.length (lineTags n lines) (lineProses n lines) := by
  induction lines generalizing n with
  | nil => exact ⟨rfl, rfl, rfl, rfl⟩
  | cons l ls ih =>
    have h := (outlined_line l n).append (ih (n + 1))
    have hempty : (lineTag n l).isEmpty = (tagName? l).isNone := by
      cases ht : tagName? l <;> simp [lineTag, ht]
    rw [hempty, Nat.add_comm 1] at h
    have hsplit : innerPieces (l :: ls) =
        (⟨.docNewline, ['\n']⟩ :: linePieces true (markedLine l)) ++ innerPieces ls := rfl
    rw [hsplit, lineTags, lineProses, List.length_cons]
    cases ht : tagName? l <;> simpa [ht] using h

end DocComment
end DocLint
