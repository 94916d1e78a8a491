import DocLint.Block
import DocLint.Spacing

/-!
# The lines of a block

The marks of a block count its lines: a text or a tag stands on the line whose mark was the last one before it.
Reading a block token by token keeps its parts in order, and lists texts and tags with the lines on which they
stand; the layout of a block depends on these lines only.
-/
namespace DocLint

/-- A token without its place. -/
def Token.piece (t : Token) : Piece := ⟨t.kind, t.text.toList⟩

theorem Piece.map_piece_place (p : Position) (ps : List Piece) : (Piece.place p ps).map Token.piece = ps := by
  induction ps generalizing p with
  | nil => rfl
  | cons x xs ih => simp [Piece.place, Piece.token, Token.piece, ih]

namespace Block

/-- The line on which a position stands: the number of marks before it. -/
def line (b : Block) (pos : Nat) : Nat := b.marks.countP (· < pos)

def proseLines (b : Block) : List Nat := b.prose.map fun p => b.line p.pos

def tagLines (b : Block) : List (Nat × String) := b.tags.map fun t => (b.line t.pos, t.name)

/-- The parts of a block are in order, and all of them stand before `next`. -/
structure Ordered (b : Block) (next : Nat) : Prop where
  marks : ∀ m ∈ b.marks, m < next
  prose : ∀ p ∈ b.prose, p.pos < next
  tags : ∀ t ∈ b.tags, t.pos < next
  unmarked : ∀ p ∈ b.prose, p.pos ∉ b.marks
  proseRising : b.prose.Pairwise fun p q => p.pos < q.pos
  tagsRising : b.tags.Pairwise fun t u => t.pos < u.pos
  ahead : ∀ p ∈ b.prose, ∀ t ∈ b.tags, p.pos < t.pos

/-- Tokens read one after another, the first at position `i`. -/
def readFrom (tags : List Nat) : Nat → Block → List Token → Block
  | _, b, [] => b
  | i, b, t :: ts => readFrom tags (i + 1) (b.read tags (i, t)) ts

theorem foldl_read_zipIdx (tags : List Nat) (i : Nat) (b : Block) (ts : List Token) :
    ((ts.zipIdx i).map fun (t, i) => (i, t)).foldl (read tags) b = readFrom tags i b ts := by
  induction ts generalizing i b with
  | nil => rfl
  | cons t ts ih => rw [List.zipIdx_cons, List.map_cons, List.foldl_cons, ih, readFrom]

/-- The positions of tags. -/
def tagPositions : Nat → List Token → List Nat
  | _, [] => []
  | i, t :: ts => if t.kind = .docTag then i :: tagPositions (i + 1) ts else tagPositions (i + 1) ts

end Block

namespace BlockTag

/-- More text changes neither where a tag stands nor what its name is. -/
theorem map_extendLast {α : Type} (f : BlockTag → α) (hf : ∀ (t : BlockTag) text, f (t.extend text) = f t)
    (ts : List BlockTag) (text : String) : (extendLast ts text).map f = ts.map f := by
  fun_induction extendLast ts text with
  | case1 => rfl
  | case2 text t => simp [hf]
  | case3 text t ts h ih => simp [ih]

theorem extendLast_concat (ts : List BlockTag) (t : BlockTag) (text : String) :
    extendLast (ts ++ [t]) text = ts ++ [t.extend text] := by
  induction ts with
  | nil => rfl
  | cons u ts ih =>
    rw [List.cons_append, List.cons_append, ← ih]
    cases ts <;> rfl

theorem exists_of_mem_extendLast {ts : List BlockTag} {text : String} {t : BlockTag}
    (h : t ∈ extendLast ts text) : ∃ u ∈ ts, u.pos = t.pos := by
  have hp := List.mem_map_of_mem (f := BlockTag.pos) h
  rw [map_extendLast BlockTag.pos (fun _ _ => rfl)] at hp
  obtain ⟨u, hu, hpos⟩ := List.mem_map.1 hp
  exact ⟨u, hu, hpos⟩

theorem pairwise_extendLast {ts : List BlockTag} (text : String) (h : ts.Pairwise fun t u => t.pos < u.pos) :
    (extendLast ts text).Pairwise fun t u => t.pos < u.pos := by
  have hp := List.pairwise_map.2 h
  rw [← map_extendLast BlockTag.pos (fun _ _ => rfl) ts text] at hp
  exact List.pairwise_map.1 hp

end BlockTag

namespace Block

variable {b : Block} {i : Nat}

theorem Ordered.mark (h : b.Ordered i) : ({ b with marks := b.marks ++ [i] } : Block).Ordered (i + 1) where
  marks m hm := by
    rcases List.mem_append.1 hm with hm | hm
    · exact Nat.lt_succ_of_lt (h.marks m hm)
    · have := List.mem_singleton.1 hm
      omega
  prose p hp := Nat.lt_succ_of_lt (h.prose p hp)
  tags t ht := Nat.lt_succ_of_lt (h.tags t ht)
  unmarked p hp hm := by
    rcases List.mem_append.1 hm with hm | hm
    · exact h.unmarked p hp hm
    · have := h.prose p hp
      have := List.mem_singleton.1 hm
      omega
  proseRising := h.proseRising
  tagsRising := h.tagsRising
  ahead := h.ahead

theorem Ordered.skip (h : b.Ordered i) : b.Ordered (i + 1) where
  marks m hm := Nat.lt_succ_of_lt (h.marks m hm)
  prose p hp := Nat.lt_succ_of_lt (h.prose p hp)
  tags t ht := Nat.lt_succ_of_lt (h.tags t ht)
  unmarked := h.unmarked
  proseRising := h.proseRising
  tagsRising := h.tagsRising
  ahead := h.ahead

theorem Ordered.tag (h : b.Ordered i) (name : String) :
    ({ b with tags := b.tags ++ [⟨i, name, ""⟩] } : Block).Ordered (i + 1) where
  marks m hm := Nat.lt_succ_of_lt (h.marks m hm)
  prose p hp := Nat.lt_succ_of_lt (h.prose p hp)
  tags t ht := by
    rcases List.mem_append.1 ht with ht | ht
    · exact Nat.lt_succ_of_lt (h.tags t ht)
    · rw [List.mem_singleton.1 ht]
      exact Nat.lt_succ_self i
  unmarked := h.unmarked
  proseRising := h.proseRising
  tagsRising := by
    refine List.pairwise_append.2 ⟨h.tagsRising, List.pairwise_singleton _ _, fun t ht u hu => ?_⟩
    rw [List.mem_singleton.1 hu]
    exact h.tags t ht
  ahead p hp t ht := by
    rcases List.mem_append.1 ht with ht | ht
    · exact h.ahead p hp t ht
    · rw [List.mem_singleton.1 ht]
      exact h.prose p hp

theorem Ordered.text (h : b.Ordered i) (ht : b.tags = []) (text : String) :
    ({ b with prose := b.prose ++ [⟨i, text⟩] } : Block).Ordered (i + 1) where
  marks m hm := Nat.lt_succ_of_lt (h.marks m hm)
  prose p hp := by
    rcases List.mem_append.1 hp with hp | hp
    · exact Nat.lt_succ_of_lt (h.prose p hp)
    · rw [List.mem_singleton.1 hp]
      exact Nat.lt_succ_self i
  tags t ht := Nat.lt_succ_of_lt (h.tags t ht)
  unmarked p hp hm := by
    rcases List.mem_append.1 hp with hp | hp
    · exact h.unmarked p hp hm
    · have := h.marks _ hm
      rw [List.mem_singleton.1 hp] at this
      exact absurd this (Nat.lt_irrefl i)
  proseRising := by
    refine List.pairwise_append.2 ⟨h.proseRising, List.pairwise_singleton _ _, fun p hp q hq => ?_⟩
    rw [List.mem_singleton.1 hq]
    exact h.prose p hp
  tagsRising := h.tagsRising
  ahead p _ t ht' := by
    rw [ht] at ht'
    cases ht'

theorem Ordered.extend (h : b.Ordered i) (text : String) :
    ({ b with tags := BlockTag.extendLast b.tags text } : Block).Ordered (i + 1) where
  marks m hm := Nat.lt_succ_of_lt (h.marks m hm)
  prose p hp := Nat.lt_succ_of_lt (h.prose p hp)
  tags t ht := by
    obtain ⟨u, hu, hpos⟩ := BlockTag.exists_of_mem_extendLast ht
    rw [← hpos]
    exact Nat.lt_succ_of_lt (h.tags u hu)
  unmarked := h.unmarked
  proseRising := h.proseRising
  tagsRising := BlockTag.pairwise_extendLast text h.tagsRising
  ahead p hp t ht := by
    obtain ⟨u, hu, hpos⟩ := BlockTag.exists_of_mem_extendLast ht
    rw [← hpos]
    exact h.ahead p hp u hu

/-- One more token keeps a block in order. -/
theorem Ordered.read (h : b.Ordered i) (tags : List Nat) (t : Token) : (b.read tags (i, t)).Ordered (i + 1) := by
  simp only [Block.read]
  split
  · exact h.mark
  · split
    · exact h.tag t.text
    · exact h.skip
  · split
    · next he => exact h.text (List.isEmpty_iff.1 he) t.text
    · exact h.extend t.text
  · exact h.skip

theorem Ordered.readFrom (h : b.Ordered i) (tags : List Nat) (ts : List Token) :
    (readFrom tags i b ts).Ordered (i + ts.length) := by
  induction ts generalizing b i with
  | nil => exact h
  | cons t ts ih =>
    have := ih (h.read tags t)
    rw [List.length_cons, Nat.add_comm ts.length 1, ← Nat.add_assoc]
    exact this

theorem ordered_empty (opener closer next : Nat) : ({ opener, closer } : Block).Ordered next := by
  constructor <;> simp

variable {tags : List Nat} {t : Token}

theorem read_star (hk : t.kind = .docStar) : b.read tags (i, t) = { b with marks := b.marks ++ [i] } := by
  simp [read, hk]

theorem read_tag (hk : t.kind = .docTag) (hi : i ∈ tags) :
    b.read tags (i, t) = { b with tags := b.tags ++ [⟨i, t.text, ""⟩] } := by
  simp [read, hk, hi]

theorem read_prose (hk : t.kind = .docString) (ht : b.tags = []) :
    b.read tags (i, t) = { b with prose := b.prose ++ [⟨i, t.text⟩] } := by
  simp [read, hk, ht]

theorem read_body (hk : t.kind = .docString) (ht : b.tags ≠ []) :
    b.read tags (i, t) = { b with tags := BlockTag.extendLast b.tags t.text } := by
  simp [read, hk, ht]

/-- The kinds of tokens that are not read. -/
def isSilent (k : Kind) : Bool := !(k = .docStar || k = .docTag || k = .docString)

theorem read_silent (hk : isSilent t.kind = true) : b.read tags (i, t) = b := by
  cases h : t.kind <;> simp_all [read, isSilent]

theorem kind_cases (k : Kind) : k = .docStar ∨ k = .docTag ∨ k = .docString ∨ isSilent k = true := by
  cases k <;> decide

theorem ne_of_isSilent {k : Kind} (h : isSilent k = true) : k ≠ .docStar ∧ k ≠ .docTag ∧ k ≠ .docString := by
  cases k <;> simp_all [isSilent]

/-- The tags of some pieces, each with its line, if `n` marks stand before. -/
def tagOutline : Nat → List Piece → List (Nat × String)
  | _, [] => []
  | n, p :: ps =>
    match p.kind with
    | .docStar => tagOutline (n + 1) ps
    | .docTag => (n, String.ofList p.text) :: tagOutline n ps
    | _ => tagOutline n ps

/-- The lines of the texts before the first tag. -/
def proseOutline : Nat → List Piece → List Nat
  | _, [] => []
  | n, p :: ps =>
    match p.kind with
    | .docStar => proseOutline (n + 1) ps
    | .docTag => []
    | .docString => n :: proseOutline n ps
    | _ => proseOutline n ps

/-- A new mark changes no line before it. -/
theorem line_mark {pos : Nat} (h : pos ≤ i) : ({ b with marks := b.marks ++ [i] } : Block).line pos = b.line pos := by
  have hi : ¬ i < pos := by omega
  simp [line, hi]

theorem Ordered.tagLines_mark (h : b.Ordered i) :
    ({ b with marks := b.marks ++ [i] } : Block).tagLines = b.tagLines := by
  refine List.map_congr_left fun t ht => ?_
  rw [line_mark (Nat.le_of_lt (h.tags t ht))]

theorem Ordered.proseLines_mark (h : b.Ordered i) :
    ({ b with marks := b.marks ++ [i] } : Block).proseLines = b.proseLines := by
  refine List.map_congr_left fun p hp => ?_
  rw [line_mark (Nat.le_of_lt (h.prose p hp))]

/-- What comes next stands on the last line. -/
theorem Ordered.line_next (h : b.Ordered i) : b.line i = b.marks.length := by
  rw [line, List.countP_eq_length]
  intro m hm
  exact decide_eq_true (h.marks m hm)

theorem tagLines_extend (b : Block) (text : String) :
    ({ b with tags := BlockTag.extendLast b.tags text } : Block).tagLines = b.tagLines :=
  BlockTag.map_extendLast _ (fun _ _ => rfl) b.tags text

theorem mem_tagPositions_cons {tags : List Nat} {t : Token} {ts : List Token}
    (h : ∀ p ∈ tagPositions i (t :: ts), p ∈ tags) :
    (t.kind = .docTag → i ∈ tags) ∧ ∀ p ∈ tagPositions (i + 1) ts, p ∈ tags := by
  constructor
  · intro ht
    exact h i (by simp [tagPositions, ht])
  · intro p hp
    refine h p ?_
    unfold tagPositions
    split
    · exact List.mem_cons_of_mem i hp
    · exact hp

theorem tagOutline_silent {p : Piece} (hk : isSilent p.kind = true) (n : Nat) (ps : List Piece) :
    tagOutline n (p :: ps) = tagOutline n ps := by
  cases h : p.kind <;> simp_all [tagOutline, isSilent]

theorem proseOutline_silent {p : Piece} (hk : isSilent p.kind = true) (n : Nat) (ps : List Piece) :
    proseOutline n (p :: ps) = proseOutline n ps := by
  cases h : p.kind <;> simp_all [proseOutline, isSilent]

/-- The number of marks among some pieces. -/
def marksIn (ps : List Piece) : Nat := ps.countP fun p => p.kind = .docStar

/-- Is one of the pieces a tag? -/
def hasTagIn (ps : List Piece) : Bool := ps.any fun p => p.kind = .docTag

theorem tagOutline_append (n : Nat) (ps qs : List Piece) :
    tagOutline n (ps ++ qs) = tagOutline n ps ++ tagOutline (n + marksIn ps) qs := by
  induction ps generalizing n with
  | nil => rfl
  | cons p ps ih =>
    have hcount : marksIn (p :: ps) = marksIn ps + if p.kind = .docStar then 1 else 0 := by
      simp [marksIn, List.countP_cons]
    rw [hcount, List.cons_append]
    rcases kind_cases p.kind with hk | hk | hk | hk
    · have hn : n + (marksIn ps + 1) = n + 1 + marksIn ps := by omega
      simp [tagOutline, hk, ih, hn]
    · simp [tagOutline, hk, ih]
    · simp [tagOutline, hk, ih]
    · simp [tagOutline_silent hk, ih, ne_of_isSilent hk]

theorem proseOutline_append (n : Nat) (ps qs : List Piece) :
    proseOutline n (ps ++ qs) =
      proseOutline n ps ++ if hasTagIn ps then [] else proseOutline (n + marksIn ps) qs := by
  induction ps generalizing n with
  | nil => rfl
  | cons p ps ih =>
    have hcount : marksIn (p :: ps) = marksIn ps + if p.kind = .docStar then 1 else 0 := by
      simp [marksIn, List.countP_cons]
    have htag : hasTagIn (p :: ps) = (decide (p.kind = .docTag) || hasTagIn ps) := rfl
    rw [hcount, htag, List.cons_append]
    rcases kind_cases p.kind with hk | hk | hk | hk
    · have hn : n + (marksIn ps + 1) = n + 1 + marksIn ps := by omega
      simp [proseOutline, hk, ih, hn]
    · simp [proseOutline, hk]
    · simp [proseOutline, hk, ih]
    · simp [proseOutline_silent hk, ih, ne_of_isSilent hk]

/-- The tags that are read, with their lines. -/
theorem Ordered.tagLines_readFrom (h : b.Ordered i) {ts : List Token}
    (ht : ∀ p ∈ tagPositions i ts, p ∈ tags) :
    (Block.readFrom tags i b ts).tagLines = b.tagLines ++ tagOutline b.marks.length (ts.map Token.piece) := by
  induction ts generalizing b i with
  | nil => simp [Block.readFrom, tagOutline]
  | cons t ts ih =>
    obtain ⟨hhead, htail⟩ := mem_tagPositions_cons ht
    rw [Block.readFrom, ih (h.read tags t) htail]
    rcases kind_cases t.kind with hk | hk | hk | hk
    · rw [read_star hk, h.tagLines_mark]
      simp [tagOutline, Token.piece, hk]
    · have hline : ({ b with tags := b.tags ++ [⟨i, t.text, ""⟩] } : Block).tagLines =
          b.tagLines ++ [(b.marks.length, t.text)] := by
        rw [← h.line_next]
        simp [tagLines, line]
      rw [read_tag hk (hhead hk), hline]
      simp [tagOutline, Token.piece, hk]
    · by_cases he : b.tags = []
      · rw [read_prose hk he]
        simp [tagOutline, Token.piece, hk, tagLines, line]
      · rw [read_body hk he, tagLines_extend]
        simp [tagOutline, Token.piece, hk]
    · rw [read_silent hk, List.map_cons, tagOutline_silent hk]

/-- The texts that are read before any tag, with their lines. -/
theorem Ordered.proseLines_readFrom (h : b.Ordered i) {ts : List Token}
    (ht : ∀ p ∈ tagPositions i ts, p ∈ tags) :
    (Block.readFrom tags i b ts).proseLines =
      b.proseLines ++ if b.tags = [] then proseOutline b.marks.length (ts.map Token.piece) else [] := by
  induction ts generalizing b i with
  | nil => simp [Block.readFrom, proseOutline]
  | cons t ts ih =>
    obtain ⟨hhead, htail⟩ := mem_tagPositions_cons ht
    rw [Block.readFrom, ih (h.read tags t) htail]
    rcases kind_cases t.kind with hk | hk | hk | hk
    · rw [read_star hk, h.proseLines_mark]
      simp [proseOutline, Token.piece, hk]
    · rw [read_tag hk (hhead hk)]
      simp [proseOutline, Token.piece, hk, proseLines, line]
    · by_cases he : b.tags = []
      · have hline : ({ b with prose := b.prose ++ [⟨i, t.text⟩] } : Block).proseLines =
            b.proseLines ++ [b.marks.length] := by
          rw [← h.line_next]
          simp [proseLines, line]
        rw [read_prose hk he, hline]
        simp [proseOutline, Token.piece, hk, he]
      · have he' : BlockTag.extendLast b.tags t.text ≠ [] := by
          intro hnil
          have := congrArg List.length (BlockTag.map_extendLast BlockTag.pos (fun _ _ => rfl) b.tags t.text)
          simp [hnil] at this
          exact he (List.length_eq_zero_iff.1 this.symm)
        rw [read_body hk he]
        simp [he, he', proseLines, line]
    · rw [read_silent hk, List.map_cons, proseOutline_silent hk]

/-- The marks between two positions are the lines between them. -/
theorem marksBetween_eq_sub {lo hi : Nat} (hlo : lo ∉ b.marks) (hle : lo ≤ hi) :
    b.marksBetween lo hi = b.line hi - b.line lo := by
  have counted : ∀ ms : List Nat, lo ∉ ms →
      ms.countP (fun m => lo < m && m < hi) + ms.countP (· < lo) = ms.countP (· < hi) := by
    intro ms hms
    induction ms with
    | nil => rfl
    | cons m ms ih =>
      have hm : lo ≠ m := fun hm => hms (by simp [hm])
      have := ih fun h => hms (List.mem_cons_of_mem m h)
      simp only [List.countP_cons, Bool.and_eq_true, decide_eq_true_eq]
      split <;> split <;> split <;> omega
  have := counted b.marks hlo
  simp only [marksBetween, line]
  omega

end Block

/-! ## The layout of a block, by lines -/

namespace Spacing

/-- One finding for each two neighbouring prose lines that are further apart than two lines. -/
def lineGaps : List Nat → List Finding
  | m :: n :: rest => (if n - m > expectedMarks then [.proseGap] else []) ++ lineGaps (n :: rest)
  | _ => []

/-- The layout of a block whose prose and first tag stand on the given lines. -/
def checkLines (policy : Policy) (prose : List Nat) (tag : Option Nat) : List Finding :=
  match prose.getLast? with
  | none => if policy.requireProse then [.noProse] else []
  | some last =>
    (if policy.checkProseGaps then lineGaps prose else []) ++
      match tag with
      | none => []
      | some n => tagSeparation policy (n - last)

theorem proseGaps_eq_lineGaps {b : Block} {ps : List Prose} (hmarks : ∀ p ∈ ps, p.pos ∉ b.marks)
    (hrising : ps.Pairwise fun p q => p.pos < q.pos) :
    proseGaps b ps = lineGaps (ps.map fun p => b.line p.pos) := by
  induction ps with
  | nil => rfl
  | cons p ps ih =>
    cases ps with
    | nil => rfl
    | cons q ps =>
      obtain ⟨hpq, hrest⟩ := List.pairwise_cons.1 hrising
      have hle : p.pos ≤ q.pos := Nat.le_of_lt (hpq q (by simp))
      rw [proseGaps, Block.marksBetween_eq_sub (hmarks p (by simp)) hle,
        ih (fun r hr => hmarks r (List.mem_cons_of_mem p hr)) hrest]
      rfl

/-- The layout of a block depends on its lines only. -/
theorem check_eq_checkLines {b : Block} {next : Nat} (h : b.Ordered next) (policy : Policy) :
    check policy b = checkLines policy b.proseLines (b.tagLines.head?.map Prod.fst) := by
  unfold check checkLines
  rw [Block.proseLines, List.getLast?_map, proseGaps_eq_lineGaps h.unmarked h.proseRising]
  cases hl : b.prose.getLast? with
  | none => rfl
  | some last =>
    have hlast : last ∈ b.prose := List.mem_of_getLast? hl
    rw [Block.tagLines, List.head?_map]
    cases ht : b.tags with
    | nil => rfl
    | cons tag tags =>
      have hle : last.pos ≤ tag.pos := Nat.le_of_lt (h.ahead last hlast tag (by simp [ht]))
      simp [Block.marksBetween_eq_sub (h.unmarked last hlast) hle]

end Spacing
end DocLint
