import DocLint.Proofs.Grouping

/-!
# What the index says of comments

The index is made in one pass with the comment that is open at hand, and comments may be left open, closed twice or
interrupted.  Still it says of each comment what can be read off the tokens behind its opener: where it is closed, if no
other comment opens before, and which tags stand in it up to there.
-/
namespace DocLint.Stream

/-! ## Positions -/

/-- Tokens with their positions, if the first one has position `i`. -/
def numbered (i : Nat) (ts : List Token) : List (Nat × Token) := (ts.zipIdx i).map fun (t, i) => (i, t)

/-- The positions of the tokens of one kind. -/
def positionsOf (k : Kind) (i : Nat) (ts : List Token) : List Nat :=
  ((numbered i ts).filter fun x => x.2.kind = k).map Prod.fst

section Positions

variable {i p : Nat} {k : Kind} {t : Token} {ts : List Token}

@[simp] theorem numbered_nil (i : Nat) : numbered i [] = [] := rfl

@[simp] theorem numbered_cons (i : Nat) (t : Token) (ts : List Token) :
    numbered i (t :: ts) = (i, t) :: numbered (i + 1) ts := rfl

theorem mem_numbered : (p, t) ∈ numbered i ts ↔ i ≤ p ∧ ts[p - i]? = some t := by
  rw [← List.mk_mem_zipIdx_iff_le_and_getElem?_sub]
  simp [numbered]

theorem pairwise_numbered (i : Nat) (ts : List Token) : (numbered i ts).Pairwise fun x y => x.1 < y.1 := by
  have hfst : (numbered i ts).map Prod.fst = List.range' i ts.length := by
    rw [numbered, List.map_map, ← List.zipIdx_map_snd i ts]
    rfl
  rw [← List.pairwise_map, hfst]
  exact List.pairwise_lt_range'

theorem mem_positionsOf : p ∈ positionsOf k i ts ↔ i ≤ p ∧ ts[p - i]?.map Token.kind = some k := by
  constructor
  · intro h
    obtain ⟨x, hx, rfl⟩ := List.mem_map.1 h
    obtain ⟨hx, hk⟩ := List.mem_filter.1 hx
    obtain ⟨hle, hget⟩ := mem_numbered.1 hx
    rw [hget]
    exact ⟨hle, congrArg some (of_decide_eq_true hk)⟩
  · rintro ⟨hle, hk⟩
    obtain ⟨t, ht, hk⟩ := Option.map_eq_some_iff.1 hk
    exact List.mem_map.2 ⟨(p, t), List.mem_filter.2 ⟨mem_numbered.2 ⟨hle, ht⟩, decide_eq_true hk⟩, rfl⟩

theorem pairwise_positionsOf (k : Kind) (i : Nat) (ts : List Token) : (positionsOf k i ts).Pairwise (· < ·) :=
  List.pairwise_map.2 ((pairwise_numbered i ts).filter _)

theorem openPositions_eq (i : Nat) (ts : List Token) : openPositions i ts = positionsOf .docOpen i ts := by
  induction ts generalizing i with
  | nil => rfl
  | cons t ts ih =>
    rw [openPositions, ih, positionsOf, positionsOf, numbered_cons, List.filter_cons]
    split <;> simp_all

theorem tagPositions_eq (i : Nat) (ts : List Token) : Block.tagPositions i ts = positionsOf .docTag i ts := by
  induction ts generalizing i with
  | nil => rfl
  | cons t ts ih =>
    rw [Block.tagPositions, ih, positionsOf, positionsOf, numbered_cons, List.filter_cons]
    split <;> simp_all

theorem mem_openers {tokens : List Token} {o : Nat} :
    o ∈ (ofTokens tokens).openers ↔ (ofTokens tokens).kind? o = some .docOpen := by
  rw [openers_ofTokens, openPositions_eq, mem_positionsOf]
  simp [kind?, ofTokens]

theorem pairwise_openers (tokens : List Token) : (ofTokens tokens).openers.Pairwise (· < ·) := by
  rw [openers_ofTokens, openPositions_eq]
  exact pairwise_positionsOf _ _ _

end Positions

/-! ## One comment -/

/-- Position `p` stands behind the opener `o`, with no other opener and no closer between them. -/
def InComment (s : Stream) (o p : Nat) : Prop :=
  s.kind? o = some .docOpen ∧ o < p ∧ ∀ q, o < q → q < p → s.kind? q ≠ some .docOpen ∧ s.kind? q ≠ some .docClose

/-- The tokens of a comment among others.  It goes up to the next opener or closer, if there is one. -/
structure CommentSpan (tokens : List Token) where
  before : List Token
  opening : Token
  inner : List Token
  after : List Token
  split : tokens = before ++ opening :: (inner ++ after)
  opens : opening.kind = .docOpen
  within : ∀ u ∈ inner, u.kind ≠ .docOpen ∧ u.kind ≠ .docClose
  ends : ∀ u ∈ after.head?, u.kind = .docOpen ∨ u.kind = .docClose

theorem exists_commentSpan {tokens : List Token} {o : Nat} (h : (ofTokens tokens).kind? o = some .docOpen) :
    ∃ e : CommentSpan tokens, e.before.length = o := by
  obtain ⟨t, ht, hk⟩ := Option.map_eq_some_iff.1 h
  replace ht : tokens[o]? = some t := ht
  obtain ⟨hlt, rfl⟩ := List.getElem?_eq_some_iff.1 ht
  have hsplit : tokens = tokens.take o ++ tokens[o] :: tokens.drop (o + 1) := by
    rw [List.getElem_cons_drop, List.take_append_drop]
  have hlength : (tokens.take o).length = o := List.length_take_of_le (Nat.le_of_lt hlt)
  have hwithin : ∀ {a : List Token}, Lacks [.docOpen, .docClose] a →
      ∀ u ∈ a, u.kind ≠ .docOpen ∧ u.kind ≠ .docClose := by
    intro a ha u hu
    simpa using ha u hu
  cases lacks_or_exists_first [.docOpen, .docClose] (tokens.drop (o + 1)) with
  | inl hall =>
    refine ⟨⟨tokens.take o, tokens[o], tokens.drop (o + 1), [], ?_, hk, hwithin hall, by simp⟩, hlength⟩
    rw [List.append_nil]
    exact hsplit
  | inr hfirst =>
    obtain ⟨a, u, b, hrest, ha, hu⟩ := hfirst
    refine ⟨⟨tokens.take o, tokens[o], a, u :: b, ?_, hk, hwithin ha, ?_⟩, hlength⟩
    · rw [← hrest]
      exact hsplit
    · intro v hv
      obtain rfl := Option.some.inj hv
      simpa using hu

namespace CommentSpan

variable {tokens : List Token} (e : CommentSpan tokens)

/-- The position of the opener. -/
abbrev lo : Nat := e.before.length

/-- The position behind the comment. -/
abbrev stop : Nat := e.before.length + 1 + e.inner.length

theorem lo_lt_stop : e.lo < e.stop := by
  simp only [lo, stop]
  omega

/-- The kinds behind the opener. -/
theorem kind?_behind (r : Nat) : (ofTokens tokens).kind? (e.lo + 1 + r) = (e.inner ++ e.after)[r]?.map Token.kind := by
  have hget : (e.before ++ e.opening :: (e.inner ++ e.after))[e.lo + 1 + r]? = (e.inner ++ e.after)[r]? := by
    rw [Nat.add_assoc, List.getElem?_append_right (Nat.le_add_right _ _), Nat.add_sub_cancel_left, Nat.add_comm 1 r,
      List.getElem?_cons_succ]
  rw [← e.split] at hget
  exact congrArg (Option.map Token.kind) hget

theorem kind?_lo : (ofTokens tokens).kind? e.lo = some .docOpen := by
  have hget : (e.before ++ e.opening :: (e.inner ++ e.after))[e.lo]? = some e.opening := by simp
  rw [← e.split] at hget
  rw [← e.opens]
  exact congrArg (Option.map Token.kind) hget

theorem kind?_stop : (ofTokens tokens).kind? e.stop = e.after.head?.map Token.kind := by
  rw [kind?_behind, List.getElem?_append_right (Nat.le_refl _), Nat.sub_self, List.head?_eq_getElem?]

theorem kind?_inner {p : Nat} (hlo : e.lo < p) (hstop : p < e.stop) :
    (ofTokens tokens).kind? p = e.inner[p - (e.lo + 1)]?.map Token.kind := by
  obtain ⟨r, rfl⟩ : ∃ r, p = e.lo + 1 + r := ⟨p - (e.lo + 1), by omega⟩
  rw [kind?_behind, List.getElem?_append_left (Nat.lt_of_add_lt_add_left hstop), Nat.add_sub_cancel_left]

theorem exists_mem_inner {p : Nat} (hlo : e.lo < p) (hstop : p < e.stop) :
    ∃ u ∈ e.inner, (ofTokens tokens).kind? p = some u.kind := by
  have hr : p - (e.lo + 1) < e.inner.length := by
    simp only [lo, stop] at hlo hstop ⊢
    omega
  rw [e.kind?_inner hlo hstop, List.getElem?_eq_getElem hr]
  exact ⟨_, List.getElem_mem hr, rfl⟩

/-- A comment goes as far as it has no opener and no closer behind its own. -/
theorem inComment_iff {p : Nat} {k : Kind} (hk : (ofTokens tokens).kind? p = some k) :
    (ofTokens tokens).InComment e.lo p ↔ e.lo < p ∧ p ≤ e.stop := by
  constructor
  · rintro ⟨-, hlt, hbetween⟩
    refine ⟨hlt, Nat.not_lt.1 fun hstop => ?_⟩
    obtain ⟨hopen, hclose⟩ := hbetween e.stop e.lo_lt_stop hstop
    rw [e.kind?_stop] at hopen hclose
    cases hafter : e.after with
    | nil =>
      -- Then the comment is all that is left, and there is nothing at `p`.
      obtain ⟨r, rfl⟩ : ∃ r, p = e.lo + 1 + (e.inner.length + r) :=
        ⟨p - e.stop, by simp only [lo, stop] at hstop ⊢; omega⟩
      rw [kind?_behind, hafter, List.append_nil, List.getElem?_eq_none (Nat.le_add_right _ _)] at hk
      cases hk
    | cons u rest =>
      have hu : e.after.head? = some u := by rw [hafter]; rfl
      rw [hu] at hopen hclose
      cases e.ends u hu with
      | inl h => exact hopen (congrArg some h)
      | inr h => exact hclose (congrArg some h)
  · rintro ⟨hlt, hle⟩
    refine ⟨e.kind?_lo, hlt, fun q hq hqp => ?_⟩
    obtain ⟨u, hu, hk⟩ := e.exists_mem_inner hq (Nat.lt_of_lt_of_le hqp hle)
    rw [hk]
    exact ⟨fun h => (e.within u hu).1 (Option.some.inj h), fun h => (e.within u hu).2 (Option.some.inj h)⟩

/-- What the index says of a comment: the closer, if it is what ends the comment, and the tags. -/
theorem comment?_eq : ∃ closer, (∀ c, closer = some c ↔ (ofTokens tokens).kind? e.stop = some .docClose ∧ c = e.stop) ∧
    (ofTokens tokens).comment? e.lo = some ⟨e.lo, closer, positionsOf .docTag (e.lo + 1) e.inner⟩ := by
  have hcomment : (ofTokens tokens).comment? e.lo =
      (commentsFrom e.stop (some ⟨e.lo, none, positionsOf .docTag (e.lo + 1) e.inner⟩) e.after).find? fun c =>
        c.opener == e.lo := by
    have hopening := comment?_opening e.opens e.before (e.inner ++ e.after)
    rw [← e.split, commentsFrom_inner e.within, List.nil_append, tagPositions_eq] at hopening
    exact hopening
  have hkind := e.kind?_stop
  have hends := e.ends
  cases hafter : e.after with
  | nil =>
    rw [hafter] at hcomment hkind
    refine ⟨none, fun c => ?_, ?_⟩
    · simp [hkind]
    · simp [hcomment, commentsFrom]
  | cons u rest =>
    rw [hafter] at hcomment hkind hends
    cases hends u rfl with
    | inl hu =>
      refine ⟨none, fun c => ?_, ?_⟩
      · simp [hkind, hu]
      · simp [hcomment, commentsFrom_open hu]
    | inr hu =>
      refine ⟨some e.stop, fun c => ?_, ?_⟩
      · simp [hkind, hu, eq_comm]
      · simp [hcomment, commentsFrom_close hu]

theorem closer?_eq_some_iff {c : Nat} :
    (ofTokens tokens).closer? e.lo = some c ↔ (ofTokens tokens).kind? e.stop = some .docClose ∧ c = e.stop := by
  obtain ⟨closer, hcloser, hcomment⟩ := e.comment?_eq
  rw [closer?, hcomment]
  exact hcloser c

theorem tags_eq : (ofTokens tokens).tags e.lo = positionsOf .docTag (e.lo + 1) e.inner := by
  obtain ⟨closer, -, hcomment⟩ := e.comment?_eq
  rw [tags, hcomment]
  rfl

end CommentSpan

/-! ## All comments -/

section Comments

variable {tokens : List Token} {o p c : Nat}

/-- Nothing is said of a position at which no comment opens. -/
theorem comment?_eq_none (h : (ofTokens tokens).kind? o ≠ some .docOpen) : (ofTokens tokens).comment? o = none := by
  refine List.find?_eq_none.2 fun e he hopener => h (mem_openers.1 ?_)
  exact List.mem_map.2 ⟨e, he, beq_iff_eq.1 hopener⟩

theorem closer?_eq_some_iff : (ofTokens tokens).closer? o = some c ↔
    (ofTokens tokens).InComment o c ∧ (ofTokens tokens).kind? c = some .docClose := by
  by_cases hopen : (ofTokens tokens).kind? o = some .docOpen
  · obtain ⟨e, rfl⟩ := exists_commentSpan hopen
    rw [e.closer?_eq_some_iff]
    constructor
    · rintro ⟨hk, rfl⟩
      exact ⟨(e.inComment_iff hk).2 ⟨e.lo_lt_stop, Nat.le_refl _⟩, hk⟩
    · rintro ⟨hin, hk⟩
      obtain ⟨hlt, hle⟩ := (e.inComment_iff hk).1 hin
      rcases Nat.lt_or_eq_of_le hle with hstop | rfl
      · obtain ⟨u, hu, hkind⟩ := e.exists_mem_inner hlt hstop
        rw [hkind] at hk
        exact absurd (Option.some.inj hk) (e.within u hu).2
      · exact ⟨hk, rfl⟩
  · rw [closer?, comment?_eq_none hopen]
    exact ⟨fun h => absurd h (by simp), fun h => absurd h.1.1 hopen⟩

theorem mem_tags : p ∈ (ofTokens tokens).tags o ↔
    (ofTokens tokens).InComment o p ∧ (ofTokens tokens).kind? p = some .docTag := by
  by_cases hopen : (ofTokens tokens).kind? o = some .docOpen
  · obtain ⟨e, rfl⟩ := exists_commentSpan hopen
    rw [e.tags_eq, mem_positionsOf]
    constructor
    · rintro ⟨hlt, hk⟩
      have hstop : p < e.stop := by
        obtain ⟨u, hu, -⟩ := Option.map_eq_some_iff.1 hk
        obtain ⟨hr, -⟩ := List.getElem?_eq_some_iff.1 hu
        simp only [CommentSpan.lo, CommentSpan.stop] at hr ⊢
        omega
      rw [← e.kind?_inner hlt hstop] at hk
      exact ⟨(e.inComment_iff hk).2 ⟨hlt, Nat.le_of_lt hstop⟩, hk⟩
    · rintro ⟨hin, hk⟩
      obtain ⟨hlt, hle⟩ := (e.inComment_iff hk).1 hin
      rcases Nat.lt_or_eq_of_le hle with hstop | rfl
      · rw [e.kind?_inner hlt hstop] at hk
        exact ⟨hlt, hk⟩
      · rw [e.kind?_stop] at hk
        obtain ⟨u, hu, hk⟩ := Option.map_eq_some_iff.1 hk
        have hends := e.ends u hu
        rw [hk] at hends
        simp at hends
  · rw [tags, comment?_eq_none hopen]
    exact ⟨fun h => absurd h (by simp), fun h => absurd h.1.1 hopen⟩

theorem pairwise_tags (tokens : List Token) (o : Nat) : ((ofTokens tokens).tags o).Pairwise (· < ·) := by
  by_cases hopen : (ofTokens tokens).kind? o = some .docOpen
  · obtain ⟨e, rfl⟩ := exists_commentSpan hopen
    rw [e.tags_eq]
    exact pairwise_positionsOf _ _ _
  · rw [tags, comment?_eq_none hopen]
    exact .nil

end Comments

end DocLint.Stream
