import DocLint.Proofs.CommentIndex

/-!
# What is read from a comment

A block is read token by token, with the list of tags from the index at hand.  What comes out is what can be read off
the tokens between opener and closer directly: all marks, the texts up to the first tag as prose, and all tags, each
with the texts up to the next one for its body.  An index that is not made from the tokens may tell anything; still the
parts of a block come out in order.
-/
namespace DocLint

/-! ## The direct reading -/

/-- The body of a tag with some texts: they are joined by spaces, from the first one on that is not empty. -/
def BlockTag.bodyOf (us : List String) : String := " ".intercalate (us.dropWhile String.isEmpty)

/-- The texts among some tokens, up to the first tag. -/
def leadingTexts (xs : List (Nat × Token)) : List (Nat × Token) :=
  (xs.takeWhile fun x => x.2.kind ≠ .docTag).filter fun x => x.2.kind = .docString

/-- What the tokens between an opener and a closer say. -/
def Stream.reading (s : Stream) (opener closer : Nat) : Block where
  opener := opener
  closer := closer
  marks := ((s.between opener closer).filter fun x => x.2.kind = .docStar).map Prod.fst
  prose := (leadingTexts (s.between opener closer)).map fun x => ⟨x.1, x.2.text⟩
  tags := ((s.between opener closer).filter fun x => x.2.kind = .docTag).map fun x =>
    ⟨x.1, x.2.text, BlockTag.bodyOf ((leadingTexts (s.between x.1 closer)).map fun y => y.2.text)⟩

section LeadingTexts

variable {x : Nat × Token} (xs : List (Nat × Token))

theorem leadingTexts_tag (hk : x.2.kind = .docTag) : leadingTexts (x :: xs) = [] := by
  simp [leadingTexts, hk]

theorem leadingTexts_text (hk : x.2.kind = .docString) : leadingTexts (x :: xs) = x :: leadingTexts xs := by
  simp [leadingTexts, hk]

theorem leadingTexts_other (htag : x.2.kind ≠ .docTag) (htext : x.2.kind ≠ .docString) :
    leadingTexts (x :: xs) = leadingTexts xs := by
  simp [leadingTexts, htag, htext]

end LeadingTexts

namespace BlockTag

theorem isEmpty_intercalate_cons {v : String} (hv : v.isEmpty = false) (vs : List String) :
    (" ".intercalate (v :: vs)).isEmpty = false := by
  cases vs with
  | nil => simpa using hv
  | cons w vs => simp [String.intercalate_cons_cons]

/-- One more text is joined to a body. -/
theorem extend_bodyOf (n : Nat) (name : String) (us : List String) (u : String) :
    extend ⟨n, name, bodyOf us⟩ u = ⟨n, name, bodyOf (us ++ [u])⟩ := by
  rw [extend, bodyOf, bodyOf, List.dropWhile_append]
  cases hus : us.dropWhile String.isEmpty with
  | nil =>
    by_cases hu : u.isEmpty = true
    · simp [String.isEmpty_iff.1 hu]
    · simp [hu]
  | cons v vs =>
    have hv : v.isEmpty = false := by
      have hhead := List.head?_dropWhile_not String.isEmpty us
      rw [hus] at hhead
      simpa using hhead
    have hjoin : " ".intercalate (v :: vs ++ [u]) = " ".intercalate (v :: vs) ++ " " ++ u := by
      rw [String.intercalate_append_of_ne_nil (List.cons_ne_nil v vs) (List.cons_ne_nil u []),
        String.intercalate_singleton]
    simp only [isEmpty_intercalate_cons hv vs, List.isEmpty_cons, Bool.false_eq_true, if_false, hjoin]

/-- The tags among some tokens, each with the texts up to the next one. -/
def readOff : List (Nat × Token) → List BlockTag
  | [] => []
  | x :: xs =>
    if x.2.kind = .docTag then
      ⟨x.1, x.2.text, bodyOf ((leadingTexts xs).map fun y => y.2.text)⟩ :: readOff xs
    else readOff xs

end BlockTag

/-! ## Reading token by token -/

namespace Block

open BlockTag (bodyOf readOff)

section Reading

variable {tags : List Nat} {xs : List (Nat × Token)} (o c : Nat)

/-- The texts after a tag, up to the next one, go into its body. -/
theorem foldl_read_tagged (h : ∀ x ∈ xs, x.2.kind = .docTag → x.1 ∈ tags) (ms : List Nat) (ps : List Prose)
    (ts : List BlockTag) (n : Nat) (name : String) (us : List String) :
    xs.foldl (read tags) ⟨o, c, ms, ps, ts ++ [⟨n, name, bodyOf us⟩]⟩ =
      ⟨o, c, ms ++ (xs.filter fun x => x.2.kind = .docStar).map Prod.fst, ps,
        ts ++ ⟨n, name, bodyOf (us ++ (leadingTexts xs).map fun y => y.2.text)⟩ :: readOff xs⟩ := by
  -- On the tokens to come; `us` are the texts that the last tag has so far.
  induction xs generalizing ms ts n name us with
  | nil => simp [leadingTexts, readOff]
  | cons x xs ih =>
    obtain ⟨hx, hxs⟩ := List.forall_mem_cons.1 h
    obtain ⟨i, t⟩ := x
    rw [List.foldl_cons]
    rcases kind_cases t.kind with hk | hk | hk | hk
    · rw [read_star hk, ih hxs, leadingTexts_other xs (by simp [hk]) (by simp [hk])]
      simp [hk, readOff]
    · have hnew := ih hxs ms (ts ++ [⟨n, name, bodyOf us⟩]) i t.text []
      rw [read_tag hk (hx hk), leadingTexts_tag xs hk]
      refine hnew.trans ?_
      simp [hk, readOff]
    · rw [read_body hk (by simp)]
      simp only [BlockTag.extendLast_concat, BlockTag.extend_bodyOf]
      rw [ih hxs, leadingTexts_text xs hk]
      simp [hk, readOff]
    · obtain ⟨hstar, htag, htext⟩ := ne_of_isSilent hk
      rw [read_silent hk, ih hxs, leadingTexts_other xs htag htext]
      simp [hstar, htag, readOff]

/-- Before the first tag, the texts are prose. -/
theorem foldl_read_untagged (h : ∀ x ∈ xs, x.2.kind = .docTag → x.1 ∈ tags) (ms : List Nat) (ps : List Prose) :
    xs.foldl (read tags) ⟨o, c, ms, ps, []⟩ =
      ⟨o, c, ms ++ (xs.filter fun x => x.2.kind = .docStar).map Prod.fst,
        ps ++ (leadingTexts xs).map fun x => ⟨x.1, x.2.text⟩, readOff xs⟩ := by
  induction xs generalizing ms ps with
  | nil => simp [leadingTexts, readOff]
  | cons x xs ih =>
    obtain ⟨hx, hxs⟩ := List.forall_mem_cons.1 h
    obtain ⟨i, t⟩ := x
    rw [List.foldl_cons]
    rcases kind_cases t.kind with hk | hk | hk | hk
    · rw [read_star hk, ih hxs, leadingTexts_other xs (by simp [hk]) (by simp [hk])]
      simp [hk, readOff]
    · have hnew := foldl_read_tagged o c hxs ms ps [] i t.text []
      rw [read_tag hk (hx hk), leadingTexts_tag xs hk]
      refine hnew.trans ?_
      simp [hk, readOff]
    · rw [read_prose hk rfl, ih hxs, leadingTexts_text xs hk]
      simp [hk, readOff]
    · obtain ⟨hstar, htag, htext⟩ := ne_of_isSilent hk
      rw [read_silent hk, ih hxs, leadingTexts_other xs htag htext]
      simp [hstar, htag, readOff]

end Reading
end Block

/-! ## The tokens between two positions -/

namespace Stream

open BlockTag (readOff)

variable {s : Stream} {lo hi : Nat} {x : Nat × Token} {xs : List (Nat × Token)}

/-- The first token between two positions, and the others. -/
theorem between_eq_cons (h : s.between lo hi = x :: xs) : x.1 = lo + 1 ∧ s.between (lo + 1) hi = xs := by
  replace h : numbered (lo + 1) ((s.tokens.drop (lo + 1)).take (hi - (lo + 1))) = x :: xs := h
  cases hdrop : s.tokens.drop (lo + 1) with
  | nil => simp [hdrop] at h
  | cons t ts =>
    cases hn : hi - (lo + 1) with
    | zero => simp [hn] at h
    | succ n =>
      have hrest : s.tokens.drop (lo + 1 + 1) = ts := by rw [← List.drop_drop, hdrop, List.drop_one, List.tail_cons]
      have hless : hi - (lo + 1 + 1) = n := by omega
      rw [hdrop, hn, List.take_succ_cons, numbered_cons, List.cons.injEq] at h
      refine ⟨by rw [← h.1], ?_⟩
      rw [between, hrest, hless]
      exact h.2

/-- The tags between two positions, each with the texts between it and the next one. -/
theorem readOff_between (s : Stream) (lo hi : Nat) : readOff (s.between lo hi) =
    ((s.between lo hi).filter fun x => x.2.kind = .docTag).map fun x =>
      ⟨x.1, x.2.text, BlockTag.bodyOf ((leadingTexts (s.between x.1 hi)).map fun y => y.2.text)⟩ := by
  induction h : s.between lo hi generalizing lo with
  | nil => rfl
  | cons x xs ih =>
    obtain ⟨hx, hxs⟩ := between_eq_cons h
    rw [readOff, ih (lo + 1) hxs, List.filter_cons]
    split
    · next hk =>
      rw [if_pos (decide_eq_true hk), List.map_cons, hx, hxs]
    · next hk =>
      rw [if_neg (by simpa using hk)]

/-- Each text between two positions comes before the first tag or behind one tag and before the next. -/
theorem leadingTexts_between (s : Stream) (lo hi : Nat) : leadingTexts (s.between lo hi) ++
    (((s.between lo hi).filter fun x => x.2.kind = .docTag).map Prod.fst).flatMap
      (fun p => leadingTexts (s.between p hi)) = (s.between lo hi).filter fun x => x.2.kind = .docString := by
  induction h : s.between lo hi generalizing lo with
  | nil => rfl
  | cons x xs ih =>
    obtain ⟨hx, hxs⟩ := between_eq_cons h
    rw [List.filter_cons, List.filter_cons, ← ih (lo + 1) hxs]
    by_cases htag : x.2.kind = .docTag
    · simp [leadingTexts_tag xs htag, htag, hx, hxs]
    · by_cases htext : x.2.kind = .docString
      · simp [leadingTexts_text xs htext, htext]
      · simp [leadingTexts_other xs htag htext, htag, htext]

/-! ## Extraction -/

section Extraction

variable {tokens : List Token} {o c : Nat}

theorem CommentSpan.between_eq (e : CommentSpan tokens) :
    (ofTokens tokens).between e.lo e.stop = numbered (e.lo + 1) e.inner := by
  have h := between_ofTokens e.before e.inner e.after e.opening
  rw [← e.split] at h
  exact h

/-- The index lists the tags up to the closer. -/
theorem tags_eq_of_closer? (h : (ofTokens tokens).closer? o = some c) : (ofTokens tokens).tags o =
    (((ofTokens tokens).between o c).filter fun x => x.2.kind = .docTag).map Prod.fst := by
  obtain ⟨e, rfl⟩ := exists_commentSpan (closer?_eq_some_iff.1 h).1.1
  obtain ⟨-, rfl⟩ := e.closer?_eq_some_iff.1 h
  rw [e.tags_eq, e.between_eq, positionsOf]

theorem extract_eq_reading (h : (ofTokens tokens).closer? o = some c) :
    Block.extract (ofTokens tokens) o = .ok ((ofTokens tokens).reading o c) := by
  obtain ⟨⟨-, hlt, -⟩, hk⟩ := closer?_eq_some_iff.1 h
  have hsize : c < (ofTokens tokens).size := by
    obtain ⟨t, ht, -⟩ := Option.map_eq_some_iff.1 hk
    exact (List.getElem?_eq_some_iff.1 ht).1
  have htags : ∀ x ∈ (ofTokens tokens).between o c, x.2.kind = .docTag → x.1 ∈ (ofTokens tokens).tags o := by
    intro x hx htag
    rw [tags_eq_of_closer? h]
    exact List.mem_map_of_mem (List.mem_filter.2 ⟨hx, decide_eq_true htag⟩)
  rw [Block.extract, h]
  simp only [if_pos (And.intro hlt hsize)]
  rw [Block.foldl_read_untagged o c htags, readOff_between]
  rfl

end Extraction
end Stream

/-! ## Any source of tokens -/

/-- Tokens and an index of comments, from anywhere: neither need fit the other, and there may be no token at a position
below the size. -/
structure CommentSource where
  size : Nat
  token? : Nat → Option Token
  closer? : Nat → Option Nat
  tags : Nat → List Nat

namespace CommentSource

/-- The tokens from position `i` on, up to the first position that has none, and at most `n`. -/
def run (src : CommentSource) : Nat → Nat → List Token
  | _, 0 => []
  | i, n + 1 =>
    match src.token? i with
    | some t => t :: src.run (i + 1) n
    | none => []

/-- The block of the doc comment that opens at `opener`, as far as the source tells. -/
def extract (src : CommentSource) (opener : Nat) : Except UnclosedComment Block :=
  match src.closer? opener with
  | some closer =>
    if opener < closer ∧ closer < src.size then
      .ok (Block.readFrom (src.tags opener) (opener + 1) { opener, closer }
        (src.run (opener + 1) (closer - (opener + 1))))
    else .error ⟨opener⟩
  | none => .error ⟨opener⟩

theorem length_run_le (src : CommentSource) (i n : Nat) : (src.run i n).length ≤ n := by
  induction n generalizing i with
  | zero => exact Nat.le_refl 0
  | succ n ih =>
    rw [run]
    split
    · exact Nat.succ_le_succ (ih (i + 1))
    · exact Nat.zero_le _

end CommentSource

/-- A stream as a source. -/
def Stream.source (s : Stream) : CommentSource := ⟨s.size, fun p => s.tokens[p]?, s.closer?, s.tags⟩

theorem Stream.run_source (s : Stream) (i n : Nat) : s.source.run i n = (s.tokens.drop i).take n := by
  induction n generalizing i with
  | zero => rw [CommentSource.run, List.take_zero]
  | succ n ih =>
    rw [CommentSource.run, ih]
    cases h : s.tokens[i]? with
    | none =>
      simp [source, h, List.drop_eq_nil_of_le (List.getElem?_eq_none_iff.1 h)]
    | some t =>
      obtain ⟨hlt, rfl⟩ := List.getElem?_eq_some_iff.1 h
      simp only [source, h]
      rw [List.drop_eq_getElem_cons hlt, List.take_succ_cons]

/-- What reads any source reads a stream as before. -/
theorem Stream.extract_source (s : Stream) (o : Nat) : s.source.extract o = Block.extract s o := by
  have hcloser : s.source.closer? o = s.closer? o := rfl
  rw [CommentSource.extract, Block.extract, hcloser]
  cases s.closer? o with
  | none => rfl
  | some c =>
    simp only [run_source, between, Block.foldl_read_zipIdx]
    rfl

namespace Block

/-- The positions of the prose and, behind them, of the tags. -/
def positions (b : Block) : List Nat := b.prose.map Prose.pos ++ b.tags.map BlockTag.pos

/-- One more token is put behind what was read, if it shows at all. -/
theorem positions_read (tags : List Nat) (b : Block) (i : Nat) (t : Token) :
    (b.read tags (i, t)).positions = b.positions ∨ (b.read tags (i, t)).positions = b.positions ++ [i] := by
  rcases kind_cases t.kind with hk | hk | hk | hk
  · rw [read_star hk]
    exact .inl rfl
  · by_cases hi : i ∈ tags
    · rw [read_tag hk hi]
      exact .inr (by simp [positions])
    · simp [read, hk, hi]
  · by_cases ht : b.tags = []
    · rw [read_prose hk ht]
      exact .inr (by simp [positions, ht])
    · rw [read_body hk ht]
      exact .inl (by simp [positions, BlockTag.map_extendLast BlockTag.pos fun _ _ => rfl])
  · rw [read_silent hk]
    exact .inl rfl

theorem exists_positions_readFrom (tags : List Nat) (b : Block) (i : Nat) (ts : List Token) :
    ∃ ps, (readFrom tags i b ts).positions = b.positions ++ ps ∧ ps.Sublist (List.range' i ts.length) := by
  induction ts generalizing b i with
  | nil => exact ⟨[], by simp [readFrom], List.nil_sublist _⟩
  | cons t ts ih =>
    obtain ⟨ps, hps, hsub⟩ := ih (b.read tags (i, t)) (i + 1)
    rw [readFrom, hps, List.length_cons, List.range'_succ]
    cases positions_read tags b i t with
    | inl h => exact ⟨ps, by rw [h], hsub.cons i⟩
    | inr h => exact ⟨i :: ps, by rw [h, List.append_assoc]; rfl, hsub.cons_cons i⟩

theorem closer_read (tags : List Nat) (b : Block) (x : Nat × Token) : (b.read tags x).closer = b.closer := by
  obtain ⟨pos, t⟩ := x
  simp only [read]
  split
  · rfl
  · split <;> rfl
  · split <;> rfl
  · rfl

theorem bounds_readFrom (tags : List Nat) (b : Block) (i : Nat) (ts : List Token) :
    (readFrom tags i b ts).opener = b.opener ∧ (readFrom tags i b ts).closer = b.closer := by
  induction ts generalizing b i with
  | nil => exact ⟨rfl, rfl⟩
  | cons t ts ih =>
    rw [readFrom, ← opener_read tags b (i, t), ← closer_read tags b (i, t)]
    exact ih _ _

end Block

/-- Some of the positions between two bounds, in order, stand in order with them. -/
theorem pairwise_of_sublist_range' {ps : List Nat} {o c n : Nat} (hps : ps.Sublist (List.range' (o + 1) (c - (o + 1))))
    (hlt : o < c) (hn : c < n) : (o :: (ps ++ [c, n])).Pairwise (· < ·) := by
  have hbounds : ∀ p ∈ ps, o < p ∧ p < c := by
    intro p hp
    have := List.mem_range'_1.1 (hps.subset hp)
    omega
  have hrising : ps.Pairwise (· < ·) := List.Pairwise.sublist hps List.pairwise_lt_range'
  refine List.pairwise_cons.2 ⟨fun p hp => ?_, List.pairwise_append.2 ⟨hrising, by simpa using hn, fun p hp q hq => ?_⟩⟩
  · cases List.mem_append.1 hp with
    | inl hp => exact (hbounds p hp).1
    | inr hp =>
      simp only [List.mem_cons, List.not_mem_nil, or_false] at hp
      omega
  · have := hbounds p hp
    simp only [List.mem_cons, List.not_mem_nil, or_false] at hq
    omega

/-- The parts of a block stand in order between its opener and its closer, whatever the source. -/
theorem CommentSource.pairwise_positions {src : CommentSource} {o : Nat} {b : Block} (h : src.extract o = .ok b) :
    b.opener = o ∧ (o :: (b.positions ++ [b.closer, src.size])).Pairwise (· < ·) := by
  unfold extract at h
  split at h
  · next c _ =>
    split at h
    · next hle =>
      obtain ⟨hlt, hsize⟩ := hle
      obtain rfl := Except.ok.inj h
      obtain ⟨hopener, hcloser⟩ := Block.bounds_readFrom (src.tags o) { opener := o, closer := c } (o + 1)
        (src.run (o + 1) (c - (o + 1)))
      obtain ⟨ps, hps, hsub⟩ := Block.exists_positions_readFrom (src.tags o) { opener := o, closer := c } (o + 1)
        (src.run (o + 1) (c - (o + 1)))
      refine ⟨hopener, ?_⟩
      rw [hps, hcloser]
      exact pairwise_of_sublist_range' (hsub.trans (List.range'_sublist_right.2 (src.length_run_le _ _))) hlt hsize
    · cases h
  · cases h

/-! ## All comments -/

/-- What the index of a stream says of its comments, and what is read from them, is what its tokens say. -/
structure CommentsExact (s : Stream) : Prop where
  openers : ∀ o, o ∈ s.openers ↔ s.kind? o = some .docOpen
  openersRising : s.openers.Pairwise (· < ·)
  closer : ∀ o c, s.closer? o = some c ↔ s.InComment o c ∧ s.kind? c = some .docClose
  tags : ∀ o p, p ∈ s.tags o ↔ s.InComment o p ∧ s.kind? p = some .docTag
  tagsRising : ∀ o, (s.tags o).Pairwise (· < ·)
  extract : ∀ o, Block.extract s o =
    match s.closer? o with
    | some c => .ok (s.reading o c)
    | none => .error ⟨o⟩
  listed : ∀ o c, s.closer? o = some c → (s.reading o c).tags.map BlockTag.pos = s.tags o
  /-- Each text of a comment is prose or stands behind one of the tags, with no tag between. -/
  texts : ∀ o c, s.closer? o = some c → leadingTexts (s.between o c) ++
    (s.tags o).flatMap (fun p => leadingTexts (s.between p c)) =
      (s.between o c).filter fun x => x.2.kind = .docString

/-- The comments of a stream are indexed and read exactly, and what is read from any source comes in order. -/
theorem comments_indexed_and_read :
    (∀ tokens, CommentsExact (.ofTokens tokens)) ∧
    (∀ (s : Stream) (o : Nat), s.source.extract o = Block.extract s o) ∧
    ∀ (src : CommentSource) (o : Nat) (b : Block), src.extract o = .ok b →
      b.opener = o ∧ (o :: (b.positions ++ [b.closer, src.size])).Pairwise (· < ·) := by
  refine ⟨fun tokens => ?_, Stream.extract_source, fun src o b h => CommentSource.pairwise_positions h⟩
  exact {
    openers := fun o => Stream.mem_openers
    openersRising := Stream.pairwise_openers tokens
    closer := fun o c => Stream.closer?_eq_some_iff
    tags := fun o p => Stream.mem_tags
    tagsRising := Stream.pairwise_tags tokens
    extract := fun o => by
      cases h : (Stream.ofTokens tokens).closer? o with
      | some c => exact Stream.extract_eq_reading h
      | none => rw [Block.extract, h]
    listed := fun o c h => by
      rw [Stream.tags_eq_of_closer? h, Stream.reading, List.map_map]
      rfl
    texts := fun o c h => by
      rw [Stream.tags_eq_of_closer? h]
      exact Stream.leadingTexts_between _ o c }

/-- A source with a hole, with a closer that is no token, and with an index that lists a text and leaves out a tag. -/
theorem comments_indexed_and_read_of_loose_source :
    ∃ (ts : List Token) (src : CommentSource) (b : Block),
      ts = [⟨.other, "!", .start⟩, ⟨.docString, "a", .start⟩, ⟨.docTag, "@x", .start⟩, ⟨.docString, "b", .start⟩,
        ⟨.docTag, "@y", .start⟩, ⟨.docString, "", .start⟩, ⟨.docString, "c", .start⟩] ∧
      src = ⟨12, fun p => ts[p]?, fun _ => some 9, fun _ => [4, 1, 40]⟩ ∧
      src.extract 0 = .ok b ∧ b.prose = [⟨1, "a"⟩, ⟨3, "b"⟩] ∧ b.tags = [⟨4, "@y", "c"⟩] ∧
      (0 :: (b.positions ++ [b.closer, src.size])).Pairwise (· < ·) := by
  refine ⟨_, _, _, rfl, rfl, rfl, rfl, rfl, ?_⟩
  exact (comments_indexed_and_read.2.2 _ 0 _ rfl).2

end DocLint
