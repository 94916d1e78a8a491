import DocLint.Proofs.Outline
import DocLint.Proofs.Tiling
import DocLint.Analysis

/-!
# Comments in the index

The index of a stream lists the doc comments by the positions of their openers, and line and column of an opener
tell which one it is.  What the index says of a closed comment, and the block that is read from it, depend on the
tokens of the comment only, whatever stands before and after.
-/
namespace DocLint

namespace Stream

/-- The index lists the comment that was open at the beginning, and those that open in the tokens. -/
theorem opener_of_mem_commentsFrom {i : Nat} {current : Option CommentEntry} {ts : List Token}
    {e : CommentEntry} (h : e ∈ commentsFrom i current ts) :
    (∃ c ∈ current, e.opener = c.opener) ∨ ∃ k t, ts[k]? = some t ∧ t.kind = .docOpen ∧ e.opener = i + k := by
  induction ts generalizing i current with
  | nil =>
    refine .inl ⟨e, ?_, rfl⟩
    simpa [commentsFrom] using h
  | cons t ts ih =>
    -- What opens later is one position further on.
    have later : ∀ {current' : Option CommentEntry}, e ∈ commentsFrom (i + 1) current' ts →
        (∃ c ∈ current', e.opener = c.opener) ∨
          ∃ k u, (t :: ts)[k]? = some u ∧ u.kind = .docOpen ∧ e.opener = i + k := by
      intro current' h
      refine (ih h).imp_right ?_
      rintro ⟨k, u, hu, hk, he⟩
      exact ⟨k + 1, u, hu, hk, by omega⟩
    unfold commentsFrom at h
    split at h
    · next ht =>
      rcases List.mem_append.1 h with h | h
      · exact .inl ⟨e, by simpa using h, rfl⟩
      · rcases later h with ⟨c, hc, he⟩ | h
        · obtain rfl := Option.some.inj hc
          exact .inr ⟨0, t, rfl, ht, he⟩
        · exact .inr h
    · rcases later h with ⟨c, hc, he⟩ | h
      · obtain ⟨d, hd, rfl⟩ := Option.map_eq_some_iff.1 hc
        exact .inl ⟨d, hd, he⟩
      · exact .inr h
    · rcases List.mem_append.1 h with h | h
      · obtain ⟨d, hd, rfl⟩ := Option.map_eq_some_iff.1 (Option.mem_toList.1 h)
        exact .inl ⟨d, hd, rfl⟩
      · rcases later h with ⟨c, hc, -⟩ | h
        · cases hc
        · exact .inr h
    · exact later h

theorem exists_token_of_mem_openers {tokens : List Token} {o : Nat} (h : o ∈ (ofTokens tokens).openers) :
    ∃ t, tokens[o]? = some t ∧ t.kind = .docOpen := by
  obtain ⟨e, he, rfl⟩ := List.mem_map.1 h
  rcases opener_of_mem_commentsFrom he with ⟨c, hc, -⟩ | ⟨k, t, ht, hk, he⟩
  · cases hc
  · rw [he, Nat.zero_add]
    exact ⟨t, ht, hk⟩

end Stream

/-- Tokens of a script that begin at the same line and column are the same token. -/
theorem eq_of_line_column {source : List Char} {i j : Nat} {t u : Token} (ht : (lex source)[i]? = some t)
    (hu : (lex source)[j]? = some u) (hl : t.start.line = u.start.line)
    (hc : t.start.column = u.start.column) : i = j := by
  obtain ⟨a, a', ha, hta⟩ := standsIn_of_mem_lex (List.mem_of_getElem? ht)
  obtain ⟨b, b', hb, hub⟩ := standsIn_of_mem_lex (List.mem_of_getElem? hu)
  rw [hta, hub] at hl hc
  have hpa : a <+: source := ⟨t.text.toList ++ a', by rw [ha, List.append_assoc]⟩
  have hpb : b <+: source := ⟨u.text.toList ++ b', by rw [hb, List.append_assoc]⟩
  have hab : a = b := Position.eq_of_isPrefix hpa hpb hl hc
  have ho : t.start.offset = u.start.offset := by rw [hta, hub, hab]
  obtain ⟨hi, rfl⟩ := List.getElem?_eq_some_iff.1 ht
  obtain ⟨hj, rfl⟩ := List.getElem?_eq_some_iff.1 hu
  have apart := List.pairwise_iff_getElem.1 (lex_tiling source).apart
  rcases Nat.lt_trichotomy i j with hij | hij | hij
  · have := (apart i j hi hj hij).1
    omega
  · exact hij
  · have := (apart j i hj hi hij).1
    omega

/-- Line and column of an opener tell which comment it opens. -/
theorem FileView.eq_of_location {path : Path} {source : List Char} {o p : Nat}
    (ho : o ∈ (Stream.ofSource source).openers) (hp : p ∈ (Stream.ofSource source).openers)
    (hl : ((FileView.mk path (.ofSource source)).location o).line =
      ((FileView.mk path (.ofSource source)).location p).line)
    (hc : ((FileView.mk path (.ofSource source)).location o).column =
      ((FileView.mk path (.ofSource source)).location p).column) : o = p := by
  obtain ⟨t, ht, -⟩ := Stream.exists_token_of_mem_openers ho
  obtain ⟨u, hu, -⟩ := Stream.exists_token_of_mem_openers hp
  have hto : (Stream.ofSource source).tokens[o]? = some t := ht
  have hup : (Stream.ofSource source).tokens[p]? = some u := hu
  simp only [FileView.location, hto, hup, Location.ofToken?] at hl hc
  exact eq_of_line_column ht hu hl hc

/-! ## Blocks and their openers -/

theorem Block.opener_read (tags : List Nat) (b : Block) (x : Nat × Token) : (b.read tags x).opener = b.opener := by
  obtain ⟨pos, t⟩ := x
  simp only [Block.read]
  split
  · rfl
  · split <;> rfl
  · split <;> rfl
  · rfl

theorem Block.opener_foldl_read (tags : List Nat) (b : Block) (xs : List (Nat × Token)) :
    (xs.foldl (Block.read tags) b).opener = b.opener := by
  induction xs generalizing b with
  | nil => rfl
  | cons x xs ih => rw [List.foldl_cons, ih, opener_read]

theorem Block.opener_of_extract {s : Stream} {o : Nat} {b : Block} (h : Block.extract s o = .ok b) :
    b.opener = o := by
  unfold Block.extract at h
  split at h
  · split at h
    · obtain rfl := Except.ok.inj h
      exact Block.opener_foldl_read _ _ _
    · cases h
  · cases h

/-- The blocks of a file are those of its closed comments. -/
theorem FileView.mem_blocks {f : FileView} {b : Block} : b ∈ f.blocks ↔ b.opener ∈ f.stream.openers ∧
    Block.extract f.stream b.opener = .ok b := by
  simp only [FileView.blocks, List.mem_filterMap]
  constructor
  · rintro ⟨o, ho, hb⟩
    cases hx : Block.extract f.stream o with
    | error e => rw [hx] at hb; cases hb
    | ok b' =>
      rw [hx] at hb
      cases hb
      obtain rfl := Block.opener_of_extract hx
      exact ⟨ho, hx⟩
  · rintro ⟨ho, hb⟩
    exact ⟨b.opener, ho, by rw [hb]; rfl⟩

/-! ## A closed comment among other tokens -/

namespace Stream

variable {i : Nat} {current : Option CommentEntry} {t : Token}

/-- The kinds of tokens that the index of comments passes over. -/
def isPassed (k : Kind) : Bool := !(k = .docOpen || k = .docTag || k = .docClose)

theorem commentKind_cases (k : Kind) : k = .docOpen ∨ k = .docTag ∨ k = .docClose ∨ isPassed k = true := by
  cases k <;> decide

theorem commentsFrom_open (hk : t.kind = .docOpen) (ts : List Token) :
    commentsFrom i current (t :: ts) = current.toList ++ commentsFrom (i + 1) (some ⟨i, none, []⟩) ts := by
  simp [commentsFrom, hk]

theorem commentsFrom_tag (hk : t.kind = .docTag) (ts : List Token) :
    commentsFrom i current (t :: ts) =
      commentsFrom (i + 1) (current.map fun c => { c with tags := c.tags ++ [i] }) ts := by
  simp [commentsFrom, hk]

theorem commentsFrom_close (hk : t.kind = .docClose) (ts : List Token) :
    commentsFrom i current (t :: ts) =
      (current.map fun c => { c with closer := some i }).toList ++ commentsFrom (i + 1) none ts := by
  simp [commentsFrom, hk]

theorem commentsFrom_passed (hk : isPassed t.kind = true) (ts : List Token) :
    commentsFrom i current (t :: ts) = commentsFrom (i + 1) current ts := by
  cases h : t.kind <;> simp_all [commentsFrom, isPassed]

/-- The entries of the tokens before, and the comment that is open after them, stand before what follows. -/
theorem commentsFrom_append (hc : ∀ c ∈ current, c.opener < i) (before : List Token) :
    ∃ es left, (∀ e ∈ es, e.opener < i + before.length) ∧ (∀ c ∈ left, c.opener < i + before.length) ∧
      ∀ more, commentsFrom i current (before ++ more) = es ++ commentsFrom (i + before.length) left more := by
  induction before generalizing i current with
  | nil => exact ⟨[], current, by simp, hc, fun _ => rfl⟩
  | cons t ts ih =>
    have next : i + (t :: ts).length = i + 1 + ts.length := by rw [List.length_cons]; omega
    have hc' : ∀ c ∈ current, c.opener < i + 1 := fun c h => Nat.lt_succ_of_lt (hc c h)
    have hlt : i < i + 1 + ts.length := by omega
    rw [next]
    rcases commentKind_cases t.kind with hk | hk | hk | hk
    · have hopen : ∀ c ∈ some (⟨i, none, []⟩ : CommentEntry), c.opener < i + 1 := by simp
      obtain ⟨es, left, hes, hleft, h⟩ := ih hopen
      refine ⟨current.toList ++ es, left, fun e he => ?_, hleft, fun more => ?_⟩
      · rcases List.mem_append.1 he with he | he
        · exact Nat.lt_trans (hc e (Option.mem_toList.1 he)) hlt
        · exact hes e he
      · rw [List.cons_append, commentsFrom_open hk, h, List.append_assoc]
    · have hsame : ∀ c ∈ current.map fun c => { c with tags := c.tags ++ [i] }, c.opener < i + 1 := by
        simpa using hc'
      obtain ⟨es, left, hes, hleft, h⟩ := ih hsame
      refine ⟨es, left, hes, hleft, fun more => ?_⟩
      rw [List.cons_append, commentsFrom_tag hk, h]
    · have hnone : ∀ c ∈ (none : Option CommentEntry), c.opener < i + 1 := by simp
      obtain ⟨es, left, hes, hleft, h⟩ := ih hnone
      refine ⟨(current.map fun c => { c with closer := some i }).toList ++ es, left, fun e he => ?_, hleft,
        fun more => ?_⟩
      · rcases List.mem_append.1 he with he | he
        · obtain ⟨c, hcur, rfl⟩ := Option.map_eq_some_iff.1 (Option.mem_toList.1 he)
          exact Nat.lt_trans (hc c hcur) hlt
        · exact hes e he
      · rw [List.cons_append, commentsFrom_close hk, h, List.append_assoc]
    · obtain ⟨es, left, hes, hleft, h⟩ := ih hc'
      refine ⟨es, left, hes, hleft, fun more => ?_⟩
      rw [List.cons_append, commentsFrom_passed hk, h]

/-- None of the tokens is of one of the kinds. -/
def Lacks (kinds : List Kind) (ts : List Token) : Prop := ∀ t ∈ ts, t.kind ∉ kinds

/-- Tokens outside of comments are passed over. -/
theorem commentsFrom_skip {ts : List Token} (h : Lacks [.docOpen, .docTag, .docClose] ts) (more : List Token) :
    commentsFrom i current (ts ++ more) = commentsFrom (i + ts.length) current more := by
  induction ts generalizing i with
  | nil => rfl
  | cons u ts ih =>
    have next : i + (u :: ts).length = i + 1 + ts.length := by rw [List.length_cons]; omega
    have hu : isPassed u.kind = true := by simpa [isPassed, and_assoc] using h u (by simp)
    rw [next, List.cons_append, commentsFrom_passed hu, ih fun v hv => h v (List.mem_cons_of_mem u hv)]

theorem commentsFrom_eq_nil {ts : List Token} (h : Lacks [.docOpen, .docTag, .docClose] ts) :
    commentsFrom i none ts = [] := by
  have hskip := @commentsFrom_skip i none ts h []
  rw [List.append_nil] at hskip
  exact hskip

/-- Inside a comment only its tags are noted. -/
theorem commentsFrom_inner {inner : List Token}
    (hinner : ∀ u ∈ inner, u.kind ≠ .docOpen ∧ u.kind ≠ .docClose) (c : CommentEntry) (more : List Token) :
    commentsFrom i (some c) (inner ++ more) =
      commentsFrom (i + inner.length) (some { c with tags := c.tags ++ Block.tagPositions i inner }) more := by
  induction inner generalizing i c with
  | nil => simp [Block.tagPositions]
  | cons u inner ih =>
    have hrest : ∀ u ∈ inner, u.kind ≠ .docOpen ∧ u.kind ≠ .docClose :=
      fun v hv => hinner v (List.mem_cons_of_mem u hv)
    have next : i + (u :: inner).length = i + 1 + inner.length := by rw [List.length_cons]; omega
    rw [next, List.cons_append]
    rcases commentKind_cases u.kind with hk | hk | hk | hk
    · exact absurd hk (hinner u (by simp)).1
    · rw [commentsFrom_tag hk, Option.map_some, ih hrest]
      simp [Block.tagPositions, hk]
    · exact absurd hk (hinner u (by simp)).2
    · have hk' : u.kind ≠ .docTag := by
        intro h
        rw [h] at hk
        cases hk
      rw [commentsFrom_passed hk, ih hrest]
      simp [Block.tagPositions, hk']

/-- What the index says of a comment is found in the tokens behind its opener. -/
theorem comment?_opening (ht : t.kind = .docOpen) (before rest : List Token) :
    (ofTokens (before ++ t :: rest)).comment? before.length =
      (commentsFrom (before.length + 1) (some ⟨before.length, none, []⟩) rest).find? fun c =>
        c.opener == before.length := by
  have hnone : ∀ c ∈ (none : Option CommentEntry), c.opener < 0 := by simp
  obtain ⟨es, left, hes, hleft, h⟩ := commentsFrom_append hnone before
  rw [Nat.zero_add] at hes hleft h
  have hearlier : ∀ e ∈ es ++ left.toList, ¬ (e.opener == before.length) = true := by
    intro e he
    rw [beq_iff_eq]
    rcases List.mem_append.1 he with he | he
    · exact Nat.ne_of_lt (hes e he)
    · exact Nat.ne_of_lt (hleft e (Option.mem_toList.1 he))
  rw [comment?, ofTokens, h, commentsFrom_open ht, ← List.append_assoc, List.find?_append,
    List.find?_eq_none.2 hearlier, Option.none_or]

/-- The tokens after one of them, up to another one. -/
theorem between_ofTokens (before inner after : List Token) (t : Token) :
    (ofTokens (before ++ t :: (inner ++ after))).between before.length (before.length + 1 + inner.length) =
      (inner.zipIdx (before.length + 1)).map fun (t, i) => (i, t) := by
  have hdrop : (before ++ t :: (inner ++ after)).drop (before.length + 1) = inner ++ after := by
    rw [← List.drop_drop, List.drop_left]
    rfl
  have hlen : before.length + 1 + inner.length - (before.length + 1) = inner.length := by omega
  rw [between, ofTokens, hdrop, hlen, List.take_left]

/-- The tokens of a closed doc comment. -/
structure ClosedComment where
  opening : Token
  inner : List Token
  closing : Token
  opens : opening.kind = .docOpen
  within : ∀ u ∈ inner, u.kind ≠ .docOpen ∧ u.kind ≠ .docClose
  closes : closing.kind = .docClose

namespace ClosedComment

variable (d : ClosedComment)

def tokens : List Token := d.opening :: (d.inner ++ [d.closing])

/-- The block of a comment that opens at position `o`. -/
def block (o : Nat) : Block :=
  Block.readFrom (Block.tagPositions (o + 1) d.inner) (o + 1)
    { opener := o, closer := o + 1 + d.inner.length } d.inner

variable {d : ClosedComment}

/-- The entry of a comment that opens at position `o`. -/
def entry (d : ClosedComment) (o : Nat) : CommentEntry :=
  ⟨o, some (o + 1 + d.inner.length), Block.tagPositions (o + 1) d.inner⟩

theorem commentsFrom_tokens (more : List Token) :
    commentsFrom i current (d.tokens ++ more) =
      current.toList ++ d.entry i :: commentsFrom (i + d.tokens.length) none more := by
  have hlen : i + d.tokens.length = i + 1 + d.inner.length + 1 := by
    simp only [tokens, List.length_cons, List.length_append, List.length_nil]
    omega
  rw [hlen, tokens, List.cons_append, List.append_assoc, commentsFrom_open d.opens, commentsFrom_inner d.within,
    List.singleton_append, commentsFrom_close d.closes]
  rfl

/-- What the index says of a comment. -/
theorem comment?_ofTokens (before after : List Token) :
    (ofTokens (before ++ (d.tokens ++ after))).comment? before.length = some (d.entry before.length) := by
  have hassoc : d.tokens ++ after = d.opening :: (d.inner ++ d.closing :: after) := by simp [tokens]
  rw [hassoc, comment?_opening d.opens, commentsFrom_inner d.within, commentsFrom_close d.closes]
  simp [entry]

/-- The block of a closed comment is read from its tokens. -/
theorem extract_ofTokens (before after : List Token) :
    Block.extract (ofTokens (before ++ (d.tokens ++ after))) before.length = .ok (d.block before.length) := by
  have hcomment := comment?_ofTokens (d := d) before after
  have hcloser : (ofTokens (before ++ (d.tokens ++ after))).closer? before.length =
      some (before.length + 1 + d.inner.length) := by
    rw [closer?, hcomment]
    rfl
  have htags : (ofTokens (before ++ (d.tokens ++ after))).tags before.length =
      Block.tagPositions (before.length + 1) d.inner := by
    rw [Stream.tags, hcomment]
    rfl
  have hsize : before.length < before.length + 1 + d.inner.length ∧
      before.length + 1 + d.inner.length < (ofTokens (before ++ (d.tokens ++ after))).size := by
    simp only [size, ofTokens, tokens, List.length_append, List.length_cons, List.length_nil]
    omega
  have hbetween : (ofTokens (before ++ (d.tokens ++ after))).between before.length
      (before.length + 1 + d.inner.length) =
        (d.inner.zipIdx (before.length + 1)).map fun (t, i) => (i, t) := by
    have hassoc : d.tokens ++ after = d.opening :: (d.inner ++ d.closing :: after) := by simp [tokens]
    rw [hassoc, between_ofTokens]
  rw [Block.extract, hcloser]
  simp only [if_pos hsize, hbetween, htags]
  rw [Block.foldl_read_zipIdx, block]

theorem ordered_block (o : Nat) : (d.block o).Ordered (o + 1 + d.inner.length) :=
  (Block.ordered_empty _ _ _).readFrom _ _

theorem tagLines_block (o : Nat) : (d.block o).tagLines = Block.tagOutline 0 (d.inner.map Token.piece) := by
  rw [block, (Block.ordered_empty _ _ _).tagLines_readFrom fun _ h => h]
  rfl

theorem proseLines_block (o : Nat) : (d.block o).proseLines = Block.proseOutline 0 (d.inner.map Token.piece) := by
  rw [block, (Block.ordered_empty _ _ _).proseLines_readFrom fun _ h => h]
  rfl

end ClosedComment

end Stream

end DocLint
