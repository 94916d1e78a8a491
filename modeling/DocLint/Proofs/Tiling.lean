import DocLint.Proofs.Comment
import DocLint.Proofs.Position

/-!
# Tokens tile the text

The slices of a script lie one after another, and the pieces of a slice lie one after another in it.  So every
byte of a script belongs to one token, or to one comment that is dropped, and a token stands in the text
where its position says.
-/
namespace DocLint

open DocLint.Text

/-- The bytes of a text that begins at `p`. -/
def Covers (p : Position) (text : List Char) (i : Nat) : Prop :=
  p.offset ≤ i ∧ i < p.offset + byteLength text

theorem not_covers_nil (p : Position) (i : Nat) : ¬ Covers p [] i := by
  intro h
  simp only [Covers, byteLength_nil] at h
  omega

theorem covers_append {p : Position} {a b : List Char} {i : Nat} :
    Covers p (a ++ b) i ↔ Covers p a i ∨ Covers (p.advance a) b i := by
  simp only [Covers, byteLength_append, Position.offset_advance]
  omega

/-- What begins where a text ends covers none of its bytes. -/
theorem Covers.not_after {p : Position} {a b : List Char} {i : Nat} (h : Covers p a i) :
    ¬ Covers (p.advance a) b i := by
  simp only [Covers, Position.offset_advance] at h ⊢
  omega

namespace Token

/-- The byte after the last one of a token. -/
def stop (t : Token) : Nat := t.start.offset + byteLength t.text.toList

/-- Does a token hold a byte of the text? -/
def Holds (t : Token) (i : Nat) : Prop := Covers t.start t.text.toList i

/-- The text of a token stands at the position of the token. -/
def StandsIn (source : List Char) (t : Token) : Prop :=
  ∃ before after, source = before ++ t.text.toList ++ after ∧ t.start = Position.start.advance before

end Token

theorem size_utf8Encode (cs : List Char) : cs.utf8Encode.size = byteLength cs := by
  induction cs with
  | nil => simp
  | cons c cs ih =>
    have hc : [c].utf8Encode.size = c.utf8Size := by
      rw [List.utf8Encode_singleton, List.size_toByteArray, String.length_utf8EncodeChar]
    rw [List.utf8Encode_cons, ByteArray.size_append, hc, ih, byteLength_cons]

/-- Where a text stands between others, its bytes are found between theirs. -/
theorem extract_utf8Encode (a b c : List Char) :
    (a ++ b ++ c).utf8Encode.extract (byteLength a) (byteLength a + byteLength b) = b.utf8Encode := by
  rw [List.append_assoc, List.utf8Encode_append, List.utf8Encode_append]
  have h := ByteArray.extract_append_size_add' (a := a.utf8Encode)
    (b := b.utf8Encode ++ c.utf8Encode) (i := 0) (j := byteLength b) (size_utf8Encode a).symm
  rw [Nat.add_zero] at h
  rw [h, ByteArray.extract_append_eq_left (size_utf8Encode b).symm]

namespace Piece

/-- Every placed piece has its place after the texts of the pieces before it. -/
theorem exists_of_mem_place {p : Position} {ps : List Piece} {t : Token} (h : t ∈ place p ps) :
    ∃ a x b, ps = a ++ x :: b ∧ t = x.token (p.advance (textOf a)) := by
  induction ps generalizing p with
  | nil => cases h
  | cons x xs ih =>
    rcases List.mem_cons.1 h with rfl | h
    · exact ⟨[], x, xs, rfl, rfl⟩
    · obtain ⟨a, y, b, rfl, rfl⟩ := ih h
      refine ⟨x :: a, y, b, rfl, ?_⟩
      rw [textOf_cons, Position.advance_append]

@[simp] theorem toList_text_token (p : Position) (x : Piece) : (x.token p).text.toList = x.text := by
  simp [token]

@[simp] theorem start_token (p : Position) (x : Piece) : (x.token p).start = p := rfl

@[simp] theorem kind_token (p : Position) (x : Piece) : (x.token p).kind = x.kind := rfl

@[simp] theorem holds_token {p : Position} {x : Piece} {i : Nat} :
    (x.token p).Holds i ↔ Covers p x.text i := by
  simp [Token.Holds]

/-- The tokens of a run of pieces hold the bytes of its text, all of them and no other. -/
theorem exists_holds_place {p : Position} {ps : List Piece} {i : Nat} :
    (∃ t ∈ place p ps, t.Holds i) ↔ Covers p (textOf ps) i := by
  induction ps generalizing p with
  | nil => simp [place, not_covers_nil]
  | cons x xs ih => simp [place, covers_append, ih]

theorem bounds_of_mem_place {p : Position} {ps : List Piece} {t : Token} (h : t ∈ place p ps) :
    p.offset ≤ t.start.offset ∧ t.stop ≤ p.offset + byteLength (textOf ps) := by
  obtain ⟨a, x, b, rfl, rfl⟩ := exists_of_mem_place h
  simp [Token.stop, Position.offset_advance]
  omega

/-- The texts of placed pieces make up the text of the run. -/
theorem flatMap_text_place (p : Position) (ps : List Piece) :
    (place p ps).flatMap (fun t => t.text.toList) = textOf ps := by
  induction ps generalizing p with
  | nil => rfl
  | cons x xs ih => simp [place, ih]

/-- A token ends before the next one begins. -/
theorem pairwise_place (p : Position) (ps : List Piece) :
    (place p ps).Pairwise fun t u => t.stop ≤ u.start.offset := by
  induction ps generalizing p with
  | nil => exact .nil
  | cons x xs ih =>
    refine .cons (fun u hu => ?_) (ih _)
    have hb := (bounds_of_mem_place hu).1
    rw [Position.offset_advance] at hb
    simpa [Token.stop] using hb

end Piece

namespace DocComment

/-- No piece of a run is empty. -/
def Filled (ps : List Piece) : Prop := ∀ x ∈ ps, x.text ≠ []

@[simp] theorem filled_nil : Filled [] := by simp [Filled]

@[simp] theorem filled_cons {x : Piece} {xs : List Piece} :
    Filled (x :: xs) ↔ x.text ≠ [] ∧ Filled xs := by simp [Filled]

@[simp] theorem filled_append {xs ys : List Piece} : Filled (xs ++ ys) ↔ Filled xs ∧ Filled ys := by
  simp only [Filled, List.mem_append]
  constructor
  · intro h
    exact ⟨fun x hx => h x (.inl hx), fun x hx => h x (.inr hx)⟩
  · rintro ⟨hx, hy⟩ x (h | h)
    · exact hx x h
    · exact hy x h

@[simp] theorem filled_blanks (t : List Char) : Filled (blanks t) := by
  cases t <;> simp [blanks]

@[simp] theorem filled_textPieces (t : List Char) : Filled (textPieces t) := by
  unfold textPieces
  cases trimEnd t <;> simp

@[simp] theorem filled_tagPieces (t : List Char) : Filled (tagPieces t) := by
  unfold tagPieces
  split <;> simp

@[simp] theorem filled_markPieces (marked : Bool) (t : List Char) : Filled (markPieces marked t) := by
  unfold markPieces
  split <;> simp

@[simp] theorem filled_linePieces (marked : Bool) (t : List Char) : Filled (linePieces marked t) := by
  simp [linePieces]

@[simp] theorem filled_furtherLines (ls : List (List Char)) : Filled (furtherLines ls) := by
  induction ls with
  | nil => simp [furtherLines]
  | cons l ls ih =>
    simp only [furtherLines, List.flatMap_cons, filled_append] at ih ⊢
    exact ⟨by simp, ih⟩

@[simp] theorem filled_bodyPieces (body : List Char) : Filled (bodyPieces body) := by
  unfold bodyPieces
  split <;> simp

theorem filled_pieces {text : List Char} (h : text ≠ []) : Filled (pieces text) := by
  unfold pieces
  split
  · simpa using h
  · next inner _ => cases hc : (bodyOf inner).2 <;> simp [hc, opening, closing]

end DocComment

namespace Slice

/-- Slices with the places at which they begin. -/
def spread : Position → List Slice → List (Position × Slice)
  | _, [] => []
  | p, s :: ss => (p, s) :: spread (p.advance s.text) ss

theorem layout_eq_flatMap (p : Position) (ss : List Slice) :
    layout p ss = (spread p ss).flatMap fun x => Piece.place x.1 x.2.pieces := by
  induction ss generalizing p with
  | nil => rfl
  | cons s ss ih => simp [layout, spread, ih]

/-- The pieces of a slice that is kept make up the slice. -/
theorem textOf_pieces {s : Slice} (h : s.cls ≠ .dropped) : Piece.textOf s.pieces = s.text := by
  unfold pieces
  split
  · simp
  · exact DocComment.textOf_pieces s.text
  · next hd => exact absurd hd h

theorem pieces_of_dropped {s : Slice} (h : s.cls = .dropped) : s.pieces = [] := by
  simp [pieces, h]

theorem byteLength_textOf_pieces_le (s : Slice) :
    byteLength (Piece.textOf s.pieces) ≤ byteLength s.text := by
  by_cases h : s.cls = .dropped
  · simp [pieces_of_dropped h]
  · exact Nat.le_of_eq (congrArg byteLength (textOf_pieces h))

/-- A placed slice is one that `measure` finds in the text, at the place where the text before it ends. -/
theorem exists_measure_of_mem_spread {p : Position} {cs : List Char} {x : Position × Slice}
    (h : x ∈ spread p (ofText cs)) :
    ∃ before c rest, cs = before ++ c :: rest ∧ x.1 = p.advance before ∧
      x.2 = ⟨(measure c rest).1, c :: rest.take (measure c rest).2⟩ := by
  fun_induction ofText cs generalizing p with
  | case1 => cases h
  | case2 c cs cls n hm ih =>
    rcases List.mem_cons.1 h with rfl | h
    · exact ⟨[], c, cs, rfl, rfl, by rw [hm]⟩
    · obtain ⟨before, d, rest, hcs, hp, hx⟩ := ih h
      refine ⟨c :: cs.take n ++ before, d, rest, ?_, ?_, hx⟩
      · rw [List.append_assoc, ← hcs, List.cons_append, List.take_append_drop]
      · rw [hp, Position.advance_append]

/-- What is no token is a comment. -/
theorem measure_eq_measureSlash {c : Char} {rest : List Char}
    (h : ∀ kind, (measure c rest).1 ≠ .token kind) : c = '/' ∧ measure c rest = measureSlash rest := by
  unfold measure at h ⊢
  by_cases hc : c = '/'
  · exact ⟨hc, if_pos hc⟩
  · have hq : ∃ kind, (measureLiteral c rest).1 = .token kind := by
      unfold measureLiteral
      split
      · exact ⟨_, rfl⟩
      · exact ⟨_, rfl⟩
    obtain ⟨kind, hq⟩ := hq
    rw [if_neg hc] at h
    split at h
    · exact absurd rfl (h _)
    · split at h
      · exact absurd hq (h kind)
      · split at h
        · exact absurd rfl (h _)
        · split at h
          · exact absurd rfl (h _)
          · exact absurd rfl (h _)

variable {p : Position} {ss : List Slice} {i : Nat}

/-- Slices cover the bytes of their texts, all of them and no other. -/
theorem exists_covers_spread :
    (∃ x ∈ spread p ss, Covers x.1 x.2.text i) ↔ Covers p (ss.flatMap Slice.text) i := by
  induction ss generalizing p with
  | nil => simp [spread, not_covers_nil]
  | cons s ss ih => simp [spread, covers_append, ← ih]

/-- No byte belongs to two slices. -/
theorem eq_of_covers_spread {x y : Position × Slice} (hx : x ∈ spread p ss) (hy : y ∈ spread p ss)
    (hxi : Covers x.1 x.2.text i) (hyi : Covers y.1 y.2.text i) : x = y := by
  induction ss generalizing p with
  | nil => cases hx
  | cons s ss ih =>
    have after : ∀ z ∈ spread (p.advance s.text) ss, Covers z.1 z.2.text i → ¬ Covers p s.text i :=
      fun z hz hzi hi => hi.not_after (exists_covers_spread.1 ⟨z, hz, hzi⟩)
    rcases List.mem_cons.1 hx with rfl | hx
    · rcases List.mem_cons.1 hy with rfl | hy
      · rfl
      · exact absurd hxi (after y hy hyi)
    · rcases List.mem_cons.1 hy with rfl | hy
      · exact absurd hyi (after x hx hxi)
      · exact ih hx hy

theorem exists_holds_layout :
    (∃ t ∈ layout p ss, t.Holds i) ↔ ∃ x ∈ spread p ss, x.2.cls ≠ .dropped ∧ Covers x.1 x.2.text i := by
  simp only [layout_eq_flatMap, List.mem_flatMap]
  constructor
  · rintro ⟨t, ⟨x, hx, ht⟩, hi⟩
    have hd : x.2.cls ≠ .dropped := by
      intro hd
      rw [pieces_of_dropped hd] at ht
      cases ht
    have hc := Piece.exists_holds_place.1 ⟨t, ht, hi⟩
    rw [textOf_pieces hd] at hc
    exact ⟨x, hx, hd, hc⟩
  · rintro ⟨x, hx, hd, hc⟩
    rw [← textOf_pieces hd] at hc
    obtain ⟨t, ht, hi⟩ := Piece.exists_holds_place.2 hc
    exact ⟨t, ⟨x, hx, ht⟩, hi⟩

/-- Tokens of different slices lie in the order of the slices. -/
theorem pairwise_layout (p : Position) (ss : List Slice) :
    (layout p ss).Pairwise fun t u => t.stop ≤ u.start.offset := by
  suffices h : (layout p ss).Pairwise (fun t u => t.stop ≤ u.start.offset) ∧
      ∀ t ∈ layout p ss, p.offset ≤ t.start.offset from h.1
  induction ss generalizing p with
  | nil => exact ⟨.nil, by simp [layout]⟩
  | cons s ss ih =>
    obtain ⟨hpair, hlow⟩ := ih (p.advance s.text)
    rw [Position.offset_advance] at hlow
    have hs := byteLength_textOf_pieces_le s
    refine ⟨List.pairwise_append.2 ⟨Piece.pairwise_place p s.pieces, hpair, ?_⟩, ?_⟩
    · intro t ht u hu
      have ht := (Piece.bounds_of_mem_place ht).2
      have hu := hlow u hu
      omega
    · intro t ht
      rcases List.mem_append.1 ht with ht | ht
      · exact (Piece.bounds_of_mem_place ht).1
      · have := hlow t ht
        omega

end Slice

/-- The comments of a class, each with its place. -/
def commentsOf (cls : SliceClass) (source : List Char) : List (Position × List Char) :=
  ((Slice.spread .start (Slice.ofText source)).filter fun x => x.2.cls = cls).map fun x => (x.1, x.2.text)

theorem mem_commentsOf {cls : SliceClass} {source : List Char} {x : Position × List Char} :
    x ∈ commentsOf cls source ↔ (x.1, ⟨cls, x.2⟩) ∈ Slice.spread .start (Slice.ofText source) := by
  simp only [commentsOf, List.mem_map, List.mem_filter, decide_eq_true_eq]
  constructor
  · rintro ⟨⟨p, s⟩, ⟨hx, rfl⟩, rfl⟩
    exact hx
  · intro hx
    exact ⟨_, ⟨hx, rfl⟩, rfl⟩

/-- What is no token stands in the text as a comment does. -/
theorem exists_comment {cls : SliceClass} {source : List Char} {x : Position × List Char}
    (hc : ∀ kind, cls ≠ .token kind) (hx : x ∈ commentsOf cls source) :
    ∃ before rest n, source = before ++ '/' :: rest ∧ x.1 = Position.start.advance before ∧
      x.2 = '/' :: rest.take n ∧ Slice.measureSlash rest = (cls, n) := by
  obtain ⟨before, c, rest, hs, hp, ht⟩ := Slice.exists_measure_of_mem_spread (mem_commentsOf.1 hx)
  obtain ⟨rfl, htext⟩ := Slice.mk.inj ht
  obtain ⟨rfl, hm⟩ := Slice.measure_eq_measureSlash hc
  exact ⟨before, rest, _, hs, hp, htext, by rw [← hm]⟩

/-- Every token of a script stands where its position says. -/
theorem standsIn_of_mem_lex {source : List Char} {t : Token} (h : t ∈ lex source) :
    t.StandsIn source := by
  rw [lex, Slice.layout_eq_flatMap, List.mem_flatMap] at h
  obtain ⟨x, hx, ht⟩ := h
  obtain ⟨before, c, rest, hs, hp, hc⟩ := Slice.exists_measure_of_mem_spread hx
  obtain ⟨a, y, b, hy, rfl⟩ := Piece.exists_of_mem_place ht
  have hd : x.2.cls ≠ .dropped := by
    intro hd
    rw [Slice.pieces_of_dropped hd] at hy
    simp at hy
  have htext := Slice.textOf_pieces hd
  rw [hy, hc] at htext
  have hrest : c :: rest = Piece.textOf (a ++ y :: b) ++ rest.drop (Slice.measure c rest).2 := by
    rw [htext, List.cons_append, List.take_append_drop]
  refine ⟨before ++ Piece.textOf a, Piece.textOf b ++ rest.drop (Slice.measure c rest).2, ?_, ?_⟩
  · rw [hs, hrest]
    simp
  · rw [Piece.start_token, hp, Position.advance_append]

/-- Tokens tile a text up to gaps: a token holds the bytes where it stands, tokens follow one another, and
what they leave out are comments. -/
structure Tiling (source : List Char) (tokens : List Token) (gaps : List (Position × List Char)) : Prop where
  filled : ∀ t ∈ tokens, t.text ≠ ""
  bytes : ∀ t ∈ tokens, source.utf8Encode.extract t.start.offset t.stop = t.text.toByteArray
  apart : tokens.Pairwise fun t u => t.start.offset < u.start.offset ∧ t.stop ≤ u.start.offset
  uncovered : ∀ i < source.utf8Encode.size, (¬ ∃ t ∈ tokens, t.Holds i) ↔ ∃ g ∈ gaps, Covers g.1 g.2 i
  comments : ∀ g ∈ gaps, ∃ before after, source = before ++ g.2 ++ after ∧
    g.1 = Position.start.advance before ∧ (IsLineComment g.2 after ∨ IsPlainComment g.2 after)
  counts : ∀ t ∈ tokens, ∃ before, before <+: source ∧ t.start.offset = byteLength before ∧
    t.start.line = 1 + before.count '\n' ∧ t.start.column = 1 + (Position.lastLine before).length

theorem text_ne_empty_of_mem_lex {source : List Char} {t : Token} (h : t ∈ lex source) : t.text ≠ "" := by
  rw [lex, Slice.layout_eq_flatMap, List.mem_flatMap] at h
  obtain ⟨x, hx, ht⟩ := h
  obtain ⟨before, c, rest, -, -, hc⟩ := Slice.exists_measure_of_mem_spread hx
  have hs : x.2.text ≠ [] := by simp [hc]
  obtain ⟨a, y, b, hy, rfl⟩ := Piece.exists_of_mem_place ht
  have hy : y ∈ x.2.pieces := by simp [hy]
  have hne : y.text ≠ [] := by
    unfold Slice.pieces at hy
    split at hy
    · rw [List.mem_singleton.1 hy]
      exact hs
    · exact DocComment.filled_pieces hs y hy
    · cases hy
  intro he
  exact hne (by rw [← Piece.toList_text_token, he]; rfl)

/-- A byte that no token holds belongs to a comment that is dropped, and only such a byte does. -/
theorem uncovered_iff {source : List Char} {i : Nat} (hi : i < byteLength source) :
    (¬ ∃ t ∈ lex source, t.Holds i) ↔ ∃ g ∈ commentsOf .dropped source, Covers g.1 g.2 i := by
  rw [lex, Slice.exists_holds_layout]
  constructor
  · intro h
    have hc : Covers .start source i := ⟨Nat.zero_le i, by simpa [Position.start] using hi⟩
    rw [← Slice.flatMap_text_ofText source, ← Slice.exists_covers_spread] at hc
    obtain ⟨⟨p, s⟩, hx, hxi⟩ := hc
    by_cases hd : s.cls = .dropped
    · exact ⟨(p, s.text), mem_commentsOf.2 (by rw [← hd]; exact hx), hxi⟩
    · exact absurd ⟨_, hx, hd, hxi⟩ h
  · rintro ⟨g, hg, hgi⟩ ⟨x, hx, hd, hxi⟩
    have he := Slice.eq_of_covers_spread (mem_commentsOf.1 hg) hx hgi hxi
    exact hd (by rw [← he])

theorem lex_tiling (source : List Char) : Tiling source (lex source) (commentsOf .dropped source) where
  filled t ht := text_ne_empty_of_mem_lex ht
  bytes t ht := by
    obtain ⟨before, after, hs, hp⟩ := standsIn_of_mem_lex ht
    have ho : t.start.offset = byteLength before := by simp [hp, Position.offset_advance, Position.start]
    rw [Token.stop, ho, hs, extract_utf8Encode, String.utf8Encode_toList]
  apart := by
    refine (Slice.pairwise_layout .start (Slice.ofText source)).imp_of_mem ?_
    intro t u ht _ h
    have hne : t.text.toList ≠ [] := fun he => text_ne_empty_of_mem_lex ht (by simpa using he)
    refine ⟨?_, h⟩
    cases htext : t.text.toList with
    | nil => exact absurd htext hne
    | cons c cs =>
      have := c.utf8Size_pos
      simp only [Token.stop, htext, byteLength_cons] at h
      omega
  uncovered i hi := uncovered_iff (by rwa [size_utf8Encode] at hi)
  comments g hg := by
    obtain ⟨before, rest, n, hs, hp, htext, hm⟩ := exists_comment (by simp) hg
    refine ⟨before, rest.drop n, ?_, hp, ?_⟩
    · rw [hs, htext, List.append_assoc, List.cons_append, List.take_append_drop]
    · rw [htext]
      exact isComment_of_dropped hm
  counts t ht := by
    obtain ⟨before, after, hs, hp⟩ := standsIn_of_mem_lex ht
    refine ⟨before, ⟨t.text.toList ++ after, by simp [hs]⟩, ?_, ?_, ?_⟩
    · simp [hp, Position.offset_advance, Position.start]
    · simp [hp, Position.line_advance, Position.start]
    · rw [hp, Position.column_start_advance]

/-- The tokens of a script tile it up to the comments that are dropped, and each doc comment is the text of a
run of neighbouring tokens. -/
theorem lex_tiles_source (source : List Char) :
    Tiling source (lex source) (commentsOf .dropped source) ∧
      ∀ d ∈ commentsOf .doc source, ∃ tokens, tokens <:+: lex source ∧
        tokens = Piece.place d.1 (DocComment.pieces d.2) ∧
        tokens.flatMap (fun t => t.text.toList) = d.2 := by
  refine ⟨lex_tiling source, fun d hd => ⟨_, ?_, rfl, ?_⟩⟩
  · obtain ⟨a, b, hab⟩ := List.append_of_mem (mem_commentsOf.1 hd)
    rw [lex, Slice.layout_eq_flatMap, hab, List.flatMap_append, List.flatMap_cons, ← List.append_assoc]
    exact List.infix_append _ _ _
  · rw [Piece.flatMap_text_place, DocComment.textOf_pieces]

end DocLint
