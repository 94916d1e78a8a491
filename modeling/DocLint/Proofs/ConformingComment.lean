import Mathlib.Data.List.Infix
import Mathlib.Data.List.TakeWhile
import DocLint.Proofs.DocLines
import DocLint.Proofs.Index

/-!
# Comments in good layout

A comment in good layout has lines of prose with at most one blank line between neighbours, one blank line, and then
its tags, each with any text after it and any lines that continue it.  Such a comment is read as one block, with the
tags that it has and a layout in which nothing is found.
-/
namespace DocLint

open DocLint.Text
open DocComment (opening closing isLead tagName? hasText lineTag lineProse lineTags lineProses docInner innerPieces)

namespace Conforming

/-- Text that stays on its line and in its comment. -/
structure Clean (cs : List Char) : Prop where
  line : '\n' ∉ cs
  comment : ¬ closing <:+: cs

instance (cs : List Char) : Decidable (Clean cs) :=
  decidable_of_iff ('\n' ∉ cs ∧ ¬ closing <:+: cs) ⟨fun h => ⟨h.1, h.2⟩, fun h => ⟨h.line, h.comment⟩⟩

/-- A line of text: it begins with neither a blank nor a tag. -/
structure TextLine where
  first : Char
  rest : List Char
  dense : isBlank first = false
  untagged : first ≠ '@'
  clean : Clean (first :: rest)

def TextLine.chars (l : TextLine) : List Char := l.first :: l.rest

/-- A line without text. -/
structure BlankLine where
  chars : List Char
  blank : ∀ c ∈ chars, isBlank c = true ∧ c ≠ '\n'

/-- A tag with the text after it and the lines that continue it. -/
structure Tag where
  name : List Char
  body : Option (List Char)
  more : List TextLine
  word : ∀ c ∈ name, isBlank c = false
  clean : Clean name
  bodyClean : ∀ t ∈ body, Clean t

namespace Tag

def text (t : Tag) : String := String.ofList ('@' :: t.name)

def firstLine (t : Tag) : List Char := '@' :: (t.name ++ (t.body.elim [] fun body => ' ' :: body))

def lines (t : Tag) : List (List Char) := t.firstLine :: t.more.map TextLine.chars

end Tag

/-- The prose of a comment, with at most one blank line before each further line. -/
structure Prose where
  first : TextLine
  further : List (Option BlankLine × TextLine)

def proseLines (further : List (Option BlankLine × TextLine)) : List (List Char) :=
  further.flatMap fun p => p.1.toList.map BlankLine.chars ++ [p.2.chars]

def Prose.lines (p : Prose) : List (List Char) := p.first.chars :: proseLines p.further

structure Comment where
  prose : Prose
  gap : BlankLine
  tags : List Tag

namespace Comment

def lines (d : Comment) : List (List Char) := d.prose.lines ++ d.gap.chars :: d.tags.flatMap Tag.lines

def text (d : Comment) : List Char := Sketch.docText d.lines

end Comment

/-! ## The outline of such a comment -/

theorem isLead_of_isBlank_false {c : Char} (h : isBlank c = false) : isLead c = false := by
  rw [Bool.eq_false_iff] at h ⊢
  exact fun hl => h (DocComment.isBlank_of_isLead hl)

/-- Some text is left of a line that begins with something else than a blank. -/
theorem trimEnd_ne_nil {c : Char} {cs : List Char} (h : isBlank c = false) : trimEnd (c :: cs) ≠ [] := by
  intro ht
  have hall : ∀ d ∈ (c :: cs).reverse, isBlank d = true := by
    rw [trimEnd, List.reverse_eq_nil_iff, List.dropWhile_eq_nil_iff] at ht
    exact ht
  rw [hall c (by simp)] at h
  cases h

theorem dropWhile_chars (l : TextLine) : l.chars.dropWhile isLead = l.chars := by
  simp [TextLine.chars, isLead_of_isBlank_false l.dense]

theorem tagName?_chars (l : TextLine) : tagName? l.chars = none :=
  DocComment.tagName?_of_ne (dropWhile_chars l) l.untagged

theorem hasText_chars (l : TextLine) : hasText l.chars = true := by
  rw [hasText, dropWhile_chars]
  simpa [TextLine.chars] using @trimEnd_ne_nil l.first l.rest l.dense

theorem tagName?_blank (l : BlankLine) : tagName? l.chars = none := by
  cases hd : l.chars.dropWhile isLead with
  | nil => rw [tagName?, hd]
  | cons c t =>
    have hc : c ∈ l.chars := (List.dropWhile_suffix isLead).subset (by rw [hd]; simp)
    refine DocComment.tagName?_of_ne hd ?_
    rintro rfl
    exact absurd (l.blank _ hc).1 (by decide)

theorem hasText_blank (l : BlankLine) : hasText l.chars = false := by
  have hall : ∀ c ∈ (l.chars.dropWhile isLead).reverse, isBlank c = true := by
    intro c hc
    exact (l.blank c ((List.dropWhile_suffix isLead).subset (List.mem_reverse.1 hc))).1
  rw [hasText, trimEnd, List.dropWhile_eq_nil_iff.2 hall]
  rfl

theorem tagName?_firstLine (t : Tag) : tagName? t.firstLine = some ('@' :: t.name) := by
  have hd : t.firstLine.dropWhile isLead = t.firstLine := by
    simp [Tag.firstLine, isLead_of_isBlank_false (show isBlank '@' = false by decide)]
  have hword : ∀ c ∈ t.name, (!isBlank c) = true := by
    intro c hc
    rw [t.word c hc]
    rfl
  have hstop : Stops (fun c => !isBlank c) (t.body.elim [] fun body => ' ' :: body) := by
    cases t.body with
    | none => simp
    | some body => simpa using (by decide : isBlank ' ' = true)
  rw [DocComment.tagName?_of_at hd, takeWhile_append_of_stops hword hstop]

@[simp] theorem lineProse_chars (l : TextLine) (n : Nat) : lineProse n l.chars = [n + 1] := by
  simp [lineProse, tagName?_chars, hasText_chars]

@[simp] theorem lineTag_blank (l : BlankLine) (n : Nat) : lineTag n l.chars = [] := by
  simp [lineTag, tagName?_blank]

@[simp] theorem lineProse_blank (l : BlankLine) (n : Nat) : lineProse n l.chars = [] := by
  simp [lineProse, hasText_blank]

theorem lineTags_append (n : Nat) (ls ms : List (List Char)) :
    lineTags n (ls ++ ms) = lineTags n ls ++ lineTags (n + ls.length) ms := by
  induction ls generalizing n with
  | nil => rfl
  | cons l ls ih =>
    have hn : n + 1 + ls.length = n + (ls.length + 1) := by omega
    simp [lineTags, ih, hn]

/-- Lines without tags, and lines after them. -/
theorem lineProses_append {ls : List (List Char)} (h : ∀ l ∈ ls, tagName? l = none) (n : Nat)
    (ms : List (List Char)) : lineProses n (ls ++ ms) = lineProses n ls ++ lineProses (n + ls.length) ms := by
  induction ls generalizing n with
  | nil => rfl
  | cons l ls ih =>
    have hn : n + 1 + ls.length = n + (ls.length + 1) := by omega
    have hl : tagName? l = none := h l (by simp)
    simp [lineProses, hl, hn, ih fun m hm => h m (List.mem_cons_of_mem l hm)]

theorem tagName?_of_mem_proseLines {further : List (Option BlankLine × TextLine)} {l : List Char}
    (h : l ∈ proseLines further) : tagName? l = none := by
  obtain ⟨p, -, hl⟩ := List.mem_flatMap.1 h
  rcases List.mem_append.1 hl with hl | hl
  · obtain ⟨b, -, rfl⟩ := List.mem_map.1 hl
    exact tagName?_blank b
  · rw [List.mem_singleton.1 hl]
    exact tagName?_chars p.2

theorem tagName?_of_mem_lines {p : Prose} {l : List Char} (h : l ∈ p.lines) : tagName? l = none := by
  rcases List.mem_cons.1 h with rfl | h
  · exact tagName?_chars p.first
  · exact tagName?_of_mem_proseLines h

theorem lineTags_eq_nil {ls : List (List Char)} (h : ∀ l ∈ ls, tagName? l = none) (n : Nat) : lineTags n ls = [] := by
  induction ls generalizing n with
  | nil => rfl
  | cons l ls ih =>
    have hl : tagName? l = none := h l (by simp)
    simp [lineTags, lineTag, hl, ih fun m hm => h m (List.mem_cons_of_mem l hm)]

/-- After a prose line at `m`, no further one comes too late, and the last one is the last line. -/
theorem lineGaps_proseLines (m : Nat) (further : List (Option BlankLine × TextLine)) :
    Spacing.lineGaps (m :: lineProses m (proseLines further)) = [] ∧
      (m :: lineProses m (proseLines further)).getLast? = some (m + (proseLines further).length) := by
  induction further generalizing m with
  | nil => exact ⟨rfl, rfl⟩
  | cons p further ih =>
    obtain ⟨gap, l⟩ := p
    -- The next line is one or two lines on.
    have step : ∀ k ls, k ≤ 2 → lineProses m ls = (m + k) :: lineProses (m + k) (proseLines further) →
        ls.length = k + (proseLines further).length →
        Spacing.lineGaps (m :: lineProses m ls) = [] ∧
          (m :: lineProses m ls).getLast? = some (m + ls.length) := by
      intro k ls hk hprose hlen
      obtain ⟨hgaps, hlast⟩ := ih (m + k)
      have hnear : ¬ m + k - m > Spacing.expectedMarks := by
        simp only [Spacing.expectedMarks]
        omega
      rw [hprose]
      constructor
      · rw [Spacing.lineGaps, if_neg hnear, hgaps]
        rfl
      · rw [List.getLast?_cons_cons, hlast, hlen, Nat.add_assoc]
    cases gap with
    | none =>
      refine step 1 _ (by omega) ?_ ?_
      · simp [proseLines, lineProses, tagName?_chars]
      · simp [proseLines]
        omega
    | some b =>
      refine step 2 _ (by omega) ?_ ?_
      · simp [proseLines, lineProses, tagName?_chars, tagName?_blank]
      · simp [proseLines]
        omega

/-- The tags of a comment, whatever continues them. -/
theorem map_lineTags (n : Nat) (tags : List Tag) :
    (lineTags n (tags.flatMap Tag.lines)).map Prod.snd = tags.map Tag.text := by
  induction tags generalizing n with
  | nil => rfl
  | cons t tags ih =>
    have hmore : lineTags (n + 1) (t.more.map TextLine.chars) = [] := by
      refine lineTags_eq_nil (fun l hl => ?_) (n + 1)
      obtain ⟨m, -, rfl⟩ := List.mem_map.1 hl
      exact tagName?_chars m
    rw [List.flatMap_cons, Tag.lines, List.cons_append, lineTags, lineTags_append, hmore, List.nil_append,
      List.map_append, ih, lineTag, tagName?_firstLine]
    rfl

/-- The first tag stands on the first of its lines. -/
theorem head?_lineTags (n : Nat) (tags : List Tag) :
    (lineTags n (tags.flatMap Tag.lines)).head?.map Prod.fst = tags.head?.map fun _ => n + 1 := by
  cases tags with
  | nil => rfl
  | cons t tags => simp [Tag.lines, lineTags, lineTag, tagName?_firstLine]

/-- No prose stands after the blank line before the tags. -/
theorem lineProses_tags (n : Nat) (tags : List Tag) : lineProses n (tags.flatMap Tag.lines) = [] := by
  cases tags with
  | nil => rfl
  | cons t tags => simp [Tag.lines, lineProses, lineProse, tagName?_firstLine]

namespace Comment

variable (d : Comment)

theorem lineTags_lines : lineTags 0 d.lines = lineTags (d.prose.lines.length + 1) (d.tags.flatMap Tag.lines) := by
  rw [lines, lineTags_append, lineTags_eq_nil (fun l hl => tagName?_of_mem_lines hl), lineTags, lineTag_blank,
    Nat.zero_add]
  rfl

theorem lineProses_lines : lineProses 0 d.lines = 1 :: lineProses 1 (proseLines d.prose.further) := by
  rw [lines, lineProses_append (fun l hl => tagName?_of_mem_lines hl), lineProses, lineProse_blank,
    tagName?_blank, lineProses_tags, Prose.lines, lineProses, lineProse_chars, tagName?_chars]
  simp

/-- Nothing is found in the layout. -/
theorem checkLines_eq_nil (policy : Spacing.Policy) :
    Spacing.checkLines policy (lineProses 0 d.lines) ((lineTags 0 d.lines).head?.map Prod.fst) = [] := by
  obtain ⟨hgaps, hlast⟩ := lineGaps_proseLines 1 d.prose.further
  have hlen : d.prose.lines.length = (proseLines d.prose.further).length + 1 := rfl
  rw [lineProses_lines, lineTags_lines, head?_lineTags, Spacing.checkLines, hlast]
  simp only [hgaps, ite_self, List.nil_append]
  cases d.tags.head? with
  | none => rfl
  | some t =>
    have hmarks : d.prose.lines.length + 1 + 1 - (1 + (proseLines d.prose.further).length) =
        Spacing.expectedMarks := by
      rw [hlen, Spacing.expectedMarks]
      omega
    rw [Option.map_some]
    simp only [hmarks, Spacing.tagSeparation, if_pos]

end Comment

/-! ## The text of such a comment -/

/-- A closing in a text that is put together lies in one of the parts or over the seam. -/
theorem closing_infix_append {a b : List Char} (h : closing <:+: a ++ b) :
    closing <:+: a ∨ closing <:+: b ∨ (a.getLast? = some '*' ∧ b.head? = some '/') := by
  induction a with
  | nil => exact .inr (.inl h)
  | cons c a ih =>
    rw [List.cons_append, closing_infix_cons] at h
    rcases h with ⟨hc, ds, hds⟩ | h
    · cases a with
      | nil =>
        subst hc
        have hb : b = '/' :: ds := hds
        exact .inr (.inr ⟨rfl, by rw [hb]; rfl⟩)
      | cons e a =>
        obtain ⟨rfl, -⟩ := List.cons.inj hds
        exact .inl (closing_infix_cons.2 (.inl ⟨hc, a, rfl⟩))
    · rcases ih h with h | h | ⟨hlast, hhead⟩
      · exact .inl (closing_infix_cons.2 (.inr h))
      · exact .inr (.inl h)
      · refine .inr (.inr ⟨?_, hhead⟩)
        cases a with
        | nil => cases hlast
        | cons e a => rw [List.getLast?_cons_cons, hlast]

theorem not_closing_append {a b : List Char} (ha : ¬ closing <:+: a) (hb : ¬ closing <:+: b)
    (seam : a.getLast? ≠ some '*' ∨ b.head? ≠ some '/') : ¬ closing <:+: a ++ b := by
  intro h
  rcases closing_infix_append h with h | h | ⟨hl, hh⟩
  · exact ha h
  · exact hb h
  · rcases seam with hs | hs
    · exact hs hl
    · exact hs hh

theorem Clean.append {a b : List Char} (ha : Clean a) (hb : Clean b)
    (seam : a.getLast? ≠ some '*' ∨ b.head? ≠ some '/') : Clean (a ++ b) where
  line h := by
    rcases List.mem_append.1 h with h | h
    · exact ha.line h
    · exact hb.line h
  comment := not_closing_append ha.comment hb.comment seam

theorem clean_cons {c : Char} {cs : List Char} (hn : c ≠ '\n') (hc : c ≠ '*') (h : Clean cs) : Clean (c :: cs) where
  line hm := by
    rcases List.mem_cons.1 hm with rfl | hm
    · exact hn rfl
    · exact h.line hm
  comment hi := by
    rcases closing_infix_cons.1 hi with ⟨rfl, -⟩ | hi
    · exact hc rfl
    · exact h.comment hi

theorem clean_blank (l : BlankLine) : Clean l.chars where
  line h := (l.blank _ h).2 rfl
  comment h := by
    have hstar : '*' ∈ l.chars := h.subset (by decide)
    exact absurd (l.blank _ hstar).1 (by decide)

theorem clean_firstLine (t : Tag) : Clean t.firstLine := by
  refine clean_cons (by decide) (by decide) ?_
  cases hb : t.body with
  | none =>
    rw [Option.elim_none, List.append_nil]
    exact t.clean
  | some body => exact t.clean.append (clean_cons (by decide) (by decide) (t.bodyClean body hb)) (.inr (by simp))

theorem clean_of_mem_proseLines {further : List (Option BlankLine × TextLine)} {l : List Char}
    (h : l ∈ proseLines further) : Clean l := by
  obtain ⟨p, -, hl⟩ := List.mem_flatMap.1 h
  rcases List.mem_append.1 hl with hl | hl
  · obtain ⟨b, -, rfl⟩ := List.mem_map.1 hl
    exact clean_blank b
  · rw [List.mem_singleton.1 hl]
    exact p.2.clean

/-- Lines with their marks do not close the comment. -/
theorem not_closing_docLines {lines : List (List Char)} (h : ∀ l ∈ lines, ¬ closing <:+: l) :
    ¬ closing <:+: lines.flatMap Sketch.docLine := by
  have one : ∀ l, ¬ closing <:+: l → ¬ closing <:+: Sketch.docLine l := by
    intro l hl
    rw [DocComment.docLine_eq]
    refine not_closing_append ?_ (by decide) (.inr (by decide))
    cases l with
    | nil => decide
    | cons c l =>
      intro hi
      simp only [DocComment.markedLine, List.isEmpty_cons, Bool.false_eq_true, if_false] at hi
      rcases closing_infix_cons.1 hi with ⟨hc, -⟩ | hi
      · exact absurd hc (by decide)
      · rcases closing_infix_cons.1 hi with ⟨-, ds, hds⟩ | hi
        · exact absurd (List.cons.inj hds).1 (by decide)
        · rcases closing_infix_cons.1 hi with ⟨hc, -⟩ | hi
          · exact absurd hc (by decide)
          · exact hl hi
  induction lines with
  | nil => decide
  | cons l ls ih =>
    rw [List.flatMap_cons]
    refine not_closing_append (one l (h l (by simp))) (ih fun m hm => h m (List.mem_cons_of_mem l hm)) (.inl ?_)
    rw [DocComment.docLine_eq, List.getLast?_concat]
    decide

namespace Comment

variable {d : Comment}

theorem clean_of_mem_lines {l : List Char} (h : l ∈ d.lines) : Clean l := by
  rcases List.mem_append.1 h with h | h
  · rcases List.mem_cons.1 h with rfl | h
    · exact d.prose.first.clean
    · exact clean_of_mem_proseLines h
  · rcases List.mem_cons.1 h with rfl | h
    · exact clean_blank d.gap
    · obtain ⟨t, -, hl⟩ := List.mem_flatMap.1 h
      rcases List.mem_cons.1 hl with rfl | hl
      · exact clean_firstLine t
      · obtain ⟨m, -, rfl⟩ := List.mem_map.1 hl
        exact m.clean

/-- The comment is cut as a whole. -/
theorem ofText_text (rest : List Char) :
    Slice.ofText (d.text ++ rest) = ⟨.doc, d.text⟩ :: Slice.ofText rest := by
  have hlines := not_closing_docLines fun l hl => (clean_of_mem_lines (d := d) hl).comment
  have hinner : ¬ closing <:+: docInner d.lines ++ ['*'] := by
    intro hi
    rcases closing_infix_cons.1 hi with ⟨hc, -⟩ | hi
    · exact absurd hc (by decide)
    · refine not_closing_append (not_closing_append hlines ?_ (.inr ?_)) ?_ (.inr ?_) hi <;> decide
  rw [text, DocComment.docText_eq]
  exact Slice.ofText_doc hinner (by simp [docInner])

/-- The tokens of a comment that begins at `p`. -/
def closed (d : Comment) (p : Position) : Stream.ClosedComment where
  opening := Piece.token p ⟨.docOpen, opening⟩
  inner := Piece.place (p.advance opening) (innerPieces d.lines)
  closing := Piece.token ((p.advance opening).advance (Piece.textOf (innerPieces d.lines))) ⟨.docClose, closing⟩
  opens := rfl
  within u hu := by
    obtain ⟨a, x, b, hx, rfl⟩ := Piece.exists_of_mem_place hu
    have hk := DocComment.kind_innerPieces (p := x) (by rw [hx]; simp)
    constructor
    all_goals
      intro h
      have hx : x.kind = _ := h
      rw [hx] at hk
      exact absurd hk (by decide)
  closes := rfl

theorem tokens_closed (d : Comment) (p : Position) :
    (d.closed p).tokens = Piece.place p (DocComment.pieces d.text) := by
  rw [text, DocComment.pieces_docText fun l hl => (clean_of_mem_lines hl).line, Piece.place, Piece.place_append]
  rfl

/-- The block of a comment has the tags of the comment, and nothing is found in its layout. -/
theorem tagLines_closed (d : Comment) (p : Position) (o : Nat) :
    ((d.closed p).block o).tagLines = lineTags 0 d.lines := by
  rw [Stream.ClosedComment.tagLines_block, closed, Piece.map_piece_place,
    (DocComment.outlined_innerPieces d.lines 0).tags]

theorem tagNames_closed (d : Comment) (p : Position) (o : Nat) :
    ((d.closed p).block o).tags.map BlockTag.name = d.tags.map Tag.text := by
  have h := congrArg (List.map Prod.snd) (tagLines_closed d p o)
  rw [lineTags_lines, map_lineTags, Block.tagLines, List.map_map] at h
  exact h

theorem check_closed (d : Comment) (p : Position) (o : Nat) (policy : Spacing.Policy) :
    Spacing.check policy ((d.closed p).block o) = [] := by
  rw [Spacing.check_eq_checkLines (Stream.ClosedComment.ordered_block o), tagLines_closed,
    Stream.ClosedComment.proseLines_block, closed, Piece.map_piece_place,
    (DocComment.outlined_innerPieces d.lines 0).prose, checkLines_eq_nil]

end Comment

end Conforming
end DocLint
