import DocLint.Proofs.Subject

/-!
# Brackets and their partners

The index pairs brackets with a stack: an opening bracket is put on it, and a closing one is paired if it closes the
bracket on top.  Brackets stay on the stack until they are paired, and those on it stand in order.  So a pair is known
by the stack before its closing bracket, and whatever was opened inside a pair is paired inside it.
-/
namespace DocLint.Stream

/-- The brackets that are open after one more token, at position `i`. -/
def openedStep (i : Nat) (opened : List (Nat × Kind)) (t : Token) : List (Nat × Kind) :=
  match t.kind.closing?, opened with
  | some k, opened => (i, k) :: opened
  | none, [] => []
  | none, (o, k) :: outer => if k = t.kind then outer else (o, k) :: outer

/-- The brackets that are open after some tokens, the first of which has position `i`. -/
def openedFrom (i : Nat) (opened : List (Nat × Kind)) : List Token → List (Nat × Kind)
  | [] => opened
  | t :: ts => openedFrom (i + 1) (openedStep i opened t) ts

/-- What a token at position `i` does with the open brackets: those open after it, and the pair that it makes. -/
inductive BracketStep (i : Nat) (opened : List (Nat × Kind)) (t : Token) :
    List (Nat × Kind) → List (Nat × Nat) → Prop
  | opens {k : Kind} (hk : t.kind.closing? = some k) : BracketStep i opened t ((i, k) :: opened) []
  | closes {o : Nat} {outer : List (Nat × Kind)} (hk : t.kind.closing? = none) (top : opened = (o, t.kind) :: outer) :
      BracketStep i opened t outer [(o, i)]
  | passes (hk : t.kind.closing? = none) (top : ∀ x ∈ opened.head?, x.2 ≠ t.kind) : BracketStep i opened t opened []

variable {i : Nat} {opened : List (Nat × Kind)} {t : Token} {ts : List Token}

theorem exists_step (i : Nat) (opened : List (Nat × Kind)) (t : Token) :
    ∃ made, BracketStep i opened t (openedStep i opened t) made ∧
      ∀ ts, pairsFrom i opened (t :: ts) = made ++ pairsFrom (i + 1) (openedStep i opened t) ts := by
  cases hk : t.kind.closing? with
  | some k =>
    have hstep : openedStep i opened t = (i, k) :: opened := by simp [openedStep, hk]
    rw [hstep]
    exact ⟨[], .opens hk, fun ts => pairsFrom_opening hk ts⟩
  | none =>
    by_cases htop : ∃ o outer, opened = (o, t.kind) :: outer
    · obtain ⟨o, outer, rfl⟩ := htop
      have hstep : openedStep i ((o, t.kind) :: outer) t = outer := by simp [openedStep, hk]
      rw [hstep]
      exact ⟨[(o, i)], .closes hk rfl, fun ts => pairsFrom_closing hk ts⟩
    · have hne : ∀ x ∈ opened.head?, x.2 ≠ t.kind := by
        intro x hx he
        obtain ⟨outer, rfl⟩ := List.head?_eq_some_iff.1 hx
        exact htop ⟨x.1, outer, by rw [← he]⟩
      have hstep : openedStep i opened t = opened := by
        cases opened with
        | nil => simp [openedStep, hk]
        | cons x outer =>
          have : x.2 ≠ t.kind := hne x rfl
          simp [openedStep, hk, this]
      rw [hstep]
      exact ⟨[], .passes hk hne, fun ts => pairsFrom_passed hk hne ts⟩

theorem openedFrom_append (i : Nat) (opened : List (Nat × Kind)) (ts us : List Token) :
    openedFrom i opened (ts ++ us) = openedFrom (i + ts.length) (openedFrom i opened ts) us := by
  induction ts generalizing i opened with
  | nil => rfl
  | cons t ts ih =>
    have next : i + (t :: ts).length = i + 1 + ts.length := by rw [List.length_cons]; omega
    rw [next, List.cons_append, openedFrom, openedFrom, ih]

theorem pairsFrom_append_opened (i : Nat) (opened : List (Nat × Kind)) (ts us : List Token) :
    pairsFrom i opened (ts ++ us) =
      pairsFrom i opened ts ++ pairsFrom (i + ts.length) (openedFrom i opened ts) us := by
  induction ts generalizing i opened with
  | nil => rfl
  | cons t ts ih =>
    obtain ⟨made, -, hpairs⟩ := exists_step i opened t
    have next : i + (t :: ts).length = i + 1 + ts.length := by rw [List.length_cons]; omega
    rw [next, List.cons_append, hpairs, hpairs, ih, openedFrom, List.append_assoc]

/-! ## The stack -/

/-- Brackets as they are open before position `i`: the last one first, each with the bracket that closes it. -/
structure Stacked (i : Nat) (opened : List (Nat × Kind)) : Prop where
  falling : opened.Pairwise fun x y => y.1 < x.1
  below : ∀ x ∈ opened, x.1 < i
  closing : ∀ x ∈ opened, x.2.isClosing = true

theorem stacked_nil (i : Nat) : Stacked i [] := by constructor <;> simp

theorem Stacked.tail {x : Nat × Kind} (h : Stacked i (x :: opened)) : Stacked i opened where
  falling := (List.pairwise_cons.1 h.falling).2
  below y hy := h.below y (List.mem_cons_of_mem x hy)
  closing y hy := h.closing y (List.mem_cons_of_mem x hy)

theorem Stacked.skip (h : Stacked i opened) : Stacked (i + 1) opened where
  falling := h.falling
  below x hx := Nat.lt_succ_of_lt (h.below x hx)
  closing := h.closing

theorem Stacked.step (h : Stacked i opened) (t : Token) : Stacked (i + 1) (openedStep i opened t) := by
  obtain ⟨made, hstep, -⟩ := exists_step i opened t
  generalize openedStep i opened t = next at hstep
  cases hstep with
  | opens hk =>
    refine ⟨List.pairwise_cons.2 ⟨h.below, h.falling⟩, fun x hx => ?_, fun x hx => ?_⟩
    · cases hx with
      | head => exact Nat.lt_succ_self i
      | tail _ hx => exact h.skip.below x hx
    · cases hx with
      | head => exact Kind.isClosing_of_closing? hk
      | tail _ hx => exact h.closing x hx
  | closes _ top =>
    subst top
    exact h.tail.skip
  | passes => exact h.skip

theorem Stacked.openedFrom (h : Stacked i opened) (ts : List Token) :
    Stacked (i + ts.length) (openedFrom i opened ts) := by
  induction ts generalizing i opened with
  | nil => exact h
  | cons t ts ih =>
    have := ih (h.step t)
    rwa [Nat.add_assoc, Nat.add_comm 1] at this

/-- Whatever is open after a token was open before, or is the token. -/
theorem mem_openedStep {x : Nat × Kind} (h : x ∈ openedStep i opened t) :
    x ∈ opened ∨ x.1 = i ∧ t.kind.closing? = some x.2 := by
  obtain ⟨made, hstep, -⟩ := exists_step i opened t
  generalize openedStep i opened t = next at hstep h
  cases hstep with
  | opens hk =>
    cases h with
    | head => exact .inr ⟨rfl, hk⟩
    | tail _ h => exact .inl h
  | closes _ top =>
    subst top
    exact .inl (List.mem_cons_of_mem _ h)
  | passes => exact .inl h

/-- Whatever is open after some tokens was open before, or is one of them. -/
theorem mem_openedFrom {x : Nat × Kind} (h : x ∈ openedFrom i opened ts) :
    x ∈ opened ∨ ∃ a u b, ts = a ++ u :: b ∧ x.1 = i + a.length ∧ u.kind.closing? = some x.2 := by
  induction ts generalizing i opened with
  | nil => exact .inl h
  | cons t ts ih =>
    cases ih h with
    | inl h =>
      cases mem_openedStep h with
      | inl h => exact .inl h
      | inr h => exact .inr ⟨[], t, ts, rfl, h.1, h.2⟩
    | inr h =>
      obtain ⟨a, u, b, rfl, hx, hk⟩ := h
      exact .inr ⟨t :: a, u, b, rfl, by rw [hx, List.length_cons]; omega, hk⟩

/-- What is open after some tokens, and stands before the last of them, was open before those. -/
theorem mem_openedFrom_front {x : Nat × Kind} {us : List Token} (h : x ∈ openedFrom i opened (ts ++ us))
    (hx : x.1 < i + ts.length) : x ∈ openedFrom i opened ts := by
  rw [openedFrom_append] at h
  cases mem_openedFrom h with
  | inl h => exact h
  | inr h =>
    obtain ⟨_, _, _, -, hpos, -⟩ := h
    omega

/-- A bracket that is open stays so until it is paired. -/
theorem mem_openedFrom_or_paired {x : Nat × Kind} (h : x ∈ opened) (ts : List Token) :
    x ∈ openedFrom i opened ts ∨ ∃ c, (x.1, c) ∈ pairsFrom i opened ts := by
  induction ts generalizing i opened with
  | nil => exact .inl h
  | cons t ts ih =>
    obtain ⟨made, hstep, hpairs⟩ := exists_step i opened t
    have later : x ∈ openedStep i opened t →
        x ∈ openedFrom i opened (t :: ts) ∨ ∃ c, (x.1, c) ∈ pairsFrom i opened (t :: ts) := by
      intro hx
      refine (ih hx).imp_right ?_
      rintro ⟨c, hc⟩
      exact ⟨c, by rw [hpairs]; exact List.mem_append_right _ hc⟩
    generalize openedStep i opened t = next at hstep later hpairs
    cases hstep with
    | opens => exact later (List.mem_cons_of_mem _ h)
    | passes => exact later h
    | closes _ top =>
      subst top
      cases h with
      | head => exact .inr ⟨i, by rw [hpairs]; exact List.mem_cons_self⟩
      | tail _ h => exact later h

/-! ## Pairs -/

/-- A pair is made by the bracket that closes the one on top of the stack. -/
theorem mem_pairsFrom {o c : Nat} :
    (o, c) ∈ pairsFrom i opened ts ↔ ∃ a u b outer, ts = a ++ u :: b ∧ c = i + a.length ∧
      u.kind.closing? = none ∧ openedFrom i opened a = (o, u.kind) :: outer := by
  constructor
  · intro h
    induction ts generalizing i opened with
    | nil => cases h
    | cons t ts ih =>
      obtain ⟨made, hstep, hpairs⟩ := exists_step i opened t
      rw [hpairs] at h
      cases List.mem_append.1 h with
      | inl h =>
        generalize openedStep i opened t = next at hstep
        cases hstep with
        | closes hk top =>
          cases List.mem_singleton.1 h
          exact ⟨[], t, ts, _, rfl, rfl, hk, top⟩
        | opens => cases h
        | passes => cases h
      | inr h =>
        obtain ⟨a, u, b, outer, rfl, rfl, hk, ha⟩ := ih h
        exact ⟨t :: a, u, b, outer, rfl, by rw [List.length_cons]; omega, hk, ha⟩
  · rintro ⟨a, u, b, outer, rfl, rfl, hk, ha⟩
    rw [pairsFrom_append_opened, ha, pairsFrom_closing hk]
    simp

/-- What is still open is in no pair. -/
theorem Stacked.ne_of_mem_pairsFrom (h : Stacked i opened) {x : Nat × Kind} (hx : x ∈ Stream.openedFrom i opened ts)
    {p : Nat × Nat} (hp : p ∈ pairsFrom i opened ts) : p.1 ≠ x.1 ∧ p.2 ≠ x.1 := by
  obtain ⟨a, u, b, outer, rfl, hc, hk, ha⟩ := mem_pairsFrom.1 hp
  have hstack : Stacked (i + a.length) ((p.1, u.kind) :: outer) := ha ▸ h.openedFrom a
  have hstep : openedStep (i + a.length) ((p.1, u.kind) :: outer) u = outer := by simp [openedStep, hk]
  have hpc : p.1 < i + a.length := hstack.below (p.1, u.kind) (by simp)
  rw [openedFrom_append, ha, Stream.openedFrom, hstep] at hx
  cases mem_openedFrom hx with
  | inl hx =>
    have hxp : x.1 < p.1 := (List.pairwise_cons.1 hstack.falling).1 x hx
    omega
  | inr hx =>
    obtain ⟨a', u', b', -, hx, -⟩ := hx
    omega

theorem Stacked.lt_of_mem_pairsFrom (h : Stacked i opened) {p : Nat × Nat} (hp : p ∈ pairsFrom i opened ts) :
    p.1 < p.2 ∧ i ≤ p.2 := by
  obtain ⟨a, u, b, outer, rfl, hc, -, ha⟩ := mem_pairsFrom.1 hp
  have hlt := (h.openedFrom a).below (p.1, u.kind) (by rw [ha]; simp)
  exact ⟨by rw [hc]; exact hlt, by omega⟩

/-- What the index says of a position is said by a pair. -/
theorem mem_pairsFrom_of_matching? {tokens : List Token} {p q : Nat} (h : (ofTokens tokens).matching? p = some q) :
    (p, q) ∈ pairsFrom 0 [] tokens ∨ (q, p) ∈ pairsFrom 0 [] tokens := by
  obtain ⟨l₁, l₂, hpairs, -⟩ := List.lookup_eq_some_iff.1 h
  have hmem : (p, q) ∈ (ofTokens tokens).pairs := by rw [hpairs]; simp
  obtain ⟨⟨o, c⟩, hoc, hpq⟩ := List.mem_flatMap.1 hmem
  simp only [List.mem_cons, Prod.mk.injEq, List.not_mem_nil, or_false] at hpq
  rcases hpq with ⟨rfl, rfl⟩ | ⟨rfl, rfl⟩
  · exact .inl hoc
  · exact .inr hoc

theorem mem_pairsFrom_of_lt {tokens : List Token} {o c : Nat} (h : (ofTokens tokens).matching? o = some c)
    (hoc : o < c) : (o, c) ∈ pairsFrom 0 [] tokens := by
  cases mem_pairsFrom_of_matching? h with
  | inl h => exact h
  | inr h =>
    have := ((stacked_nil 0).lt_of_mem_pairsFrom h).1
    exact absurd this (by simp only; omega)

/-- The partner of an opening bracket. -/
theorem matching?_of_mem_pairsFrom {tokens : List Token} {o c : Nat} (h : (o, c) ∈ pairsFrom 0 [] tokens) :
    (ofTokens tokens).matching? o = some c := by
  obtain ⟨a, u, b, outer, rfl, rfl, hk, ha⟩ := mem_pairsFrom.1 h
  have hopen : (o, u.kind) ∈ openedFrom 0 [] a := by rw [ha]; simp
  have hearlier : ((pairsFrom 0 [] a).flatMap fun p => [p, (p.2, p.1)]).lookup o = none := by
    refine List.lookup_eq_none_iff.2 fun q hq => ?_
    obtain ⟨p, hp, hq⟩ := List.mem_flatMap.1 hq
    obtain ⟨hfst, hsnd⟩ := (stacked_nil 0).ne_of_mem_pairsFrom hopen hp
    simp only [List.mem_cons, List.not_mem_nil, or_false] at hq
    rcases hq with rfl | rfl
    · simpa using hfst.symm
    · simpa using hsnd.symm
  rw [matching?, ofTokens, pairsFrom_append_opened, ha, pairsFrom_closing hk]
  simp only [List.flatMap_append, List.flatMap_cons, List.lookup_append, hearlier]
  simp

/-! ## Inside a pair -/

/-- A bracket that stays open keeps what is below it, and what comes on top does not depend on that. -/
theorem Stacked.openedFrom_above {x : Nat × Kind} {outer : List (Nat × Kind)} (h : Stacked i (opened ++ x :: outer))
    (hx : x ∈ Stream.openedFrom i (opened ++ x :: outer) ts) :
    Stream.openedFrom i (opened ++ x :: outer) ts = Stream.openedFrom i opened ts ++ x :: outer := by
  induction ts generalizing i opened with
  | nil => rfl
  | cons t ts ih =>
    have hbelow : x.1 < i := h.below x (by simp)
    have houter : ∀ y ∈ outer, y.1 < x.1 :=
      (List.pairwise_cons.1 (List.pairwise_append.1 h.falling).2.1).1
    have hstep : openedStep i (opened ++ x :: outer) t = openedStep i opened t ++ x :: outer := by
      cases hk : t.kind.closing? with
      | some k => simp [openedStep, hk]
      | none =>
        cases opened with
        | cons y opened =>
          simp only [openedStep, hk, List.cons_append]
          split <;> rfl
        | nil =>
          by_cases hc : x.2 = t.kind
          · -- The bracket would be closed here, and nothing opens it again.
            have hpop : openedStep i (x :: outer) t = outer := by simp [openedStep, hk, hc]
            rw [List.nil_append, Stream.openedFrom, hpop] at hx
            cases mem_openedFrom hx with
            | inl hx => exact absurd (houter x hx) (Nat.lt_irrefl _)
            | inr hx =>
              obtain ⟨a, u, b, -, hx, -⟩ := hx
              omega
          · simp [openedStep, hk, hc]
    have hnext := h.step t
    rw [hstep] at hnext
    rw [Stream.openedFrom, hstep] at hx ⊢
    exact ih hnext hx

/-- Two brackets that belong together, and the tokens around them. -/
structure BracketPair (tokens : List Token) where
  before : List Token
  opening : Token
  inner : List Token
  closing : Token
  after : List Token
  split : tokens = before ++ opening :: (inner ++ closing :: after)
  opens : opening.kind.closing? = some closing.kind
  closes : closing.kind.closing? = none
  /-- Between the brackets, the opening one stays open. -/
  top : ∀ a b, inner = a ++ b → openedFrom 0 [] (before ++ opening :: a) =
    openedFrom (before.length + 1) [] a ++ (before.length, closing.kind) :: openedFrom 0 [] before
  /-- Whatever is opened between the brackets is closed there. -/
  level : openedFrom (before.length + 1) [] inner = []

namespace BracketPair

variable {tokens : List Token} (e : BracketPair tokens)

/-- The position of the opening bracket. -/
abbrev lo : Nat := e.before.length

/-- The position of the closing bracket. -/
abbrev hi : Nat := e.before.length + 1 + e.inner.length

end BracketPair

theorem exists_bracketPair {tokens : List Token} {o c : Nat} (h : (o, c) ∈ pairsFrom 0 [] tokens) :
    ∃ e : BracketPair tokens, e.lo = o ∧ e.hi = c := by
  obtain ⟨a, closing, after, outer, rfl, rfl, hcloses, ha⟩ := mem_pairsFrom.1 h
  have hmem : (o, closing.kind) ∈ openedFrom 0 [] a := by rw [ha]; simp
  obtain hnone | ⟨before, opening, inner, rfl, rfl, hopens⟩ := mem_openedFrom hmem
  · cases hnone
  · have hpush : openedStep before.length (openedFrom 0 [] before) opening =
        [] ++ (before.length, closing.kind) :: openedFrom 0 [] before := by simp [openedStep, hopens]
    have hstacked := ((stacked_nil 0).openedFrom before).step opening
    simp only [Nat.zero_add] at hstacked hmem ha
    rw [hpush] at hstacked
    have htop : ∀ a b, inner = a ++ b → openedFrom 0 [] (before ++ opening :: a) =
        openedFrom (before.length + 1) [] a ++ (before.length, closing.kind) :: openedFrom 0 [] before := by
      rintro a b rfl
      rw [openedFrom_append, Nat.zero_add, openedFrom, hpush] at hmem ⊢
      exact hstacked.openedFrom_above (mem_openedFrom_front hmem (by simp only; omega))
    have hlevel : openedFrom (before.length + 1) [] inner = [] := by
      have hfalling := ((stacked_nil 0).openedFrom (before ++ opening :: inner)).falling
      rw [htop inner [] (by simp)] at ha hfalling
      cases hs : openedFrom (before.length + 1) [] inner with
      | nil => rfl
      | cons x xs =>
        rw [hs, List.cons_append] at ha hfalling
        have hlt := (List.pairwise_cons.1 hfalling).1 (before.length, closing.kind) (by simp)
        rw [(List.cons.inj ha).1] at hlt
        exact absurd hlt (Nat.lt_irrefl _)
    refine ⟨⟨before, opening, inner, closing, after, by simp, hopens, hcloses, htop, hlevel⟩, by simp, ?_⟩
    simp only [BracketPair.hi, List.length_append, List.length_cons]
    omega

namespace BracketPair

variable {tokens : List Token} {e : BracketPair tokens} {a b : List Token}

theorem between_eq (e : BracketPair tokens) :
    (ofTokens tokens).between e.lo e.hi = (e.inner.zipIdx (e.lo + 1)).map fun (t, i) => (i, t) := by
  have h := between_ofTokens e.before e.inner (e.closing :: e.after) e.opening
  rw [← e.split] at h
  exact h

/-- The tokens up to one inside the pair. -/
theorem tokens_eq (h : e.inner = a ++ b) :
    tokens = (e.before ++ e.opening :: a) ++ (b ++ e.closing :: e.after) := by
  have hsplit := e.split
  rw [h] at hsplit
  exact hsplit.trans (by simp)

theorem length_front (a : List Token) : (e.before ++ e.opening :: a).length = e.lo + 1 + a.length := by
  simp only [lo, List.length_append, List.length_cons]
  omega

theorem kind?_inner {u : Token} (h : e.inner = a ++ u :: b) :
    (ofTokens tokens).kind? (e.lo + 1 + a.length) = some u.kind := by
  have hget : ((e.before ++ e.opening :: a) ++ (u :: b ++ e.closing :: e.after))[e.lo + 1 + a.length]? = some u := by
    rw [List.getElem?_append_right (Nat.le_of_eq (length_front a)), length_front, Nat.sub_self]
    rfl
  rw [← tokens_eq h] at hget
  exact congrArg (Option.map Token.kind) hget

theorem kind?_lo (e : BracketPair tokens) : (ofTokens tokens).kind? e.lo = some e.opening.kind := by
  have hget : (e.before ++ e.opening :: (e.inner ++ e.closing :: e.after))[e.lo]? = some e.opening := by simp
  rw [← e.split] at hget
  exact congrArg (Option.map Token.kind) hget

theorem kind?_hi (e : BracketPair tokens) : (ofTokens tokens).kind? e.hi = some e.closing.kind := by
  have hget : ((e.before ++ e.opening :: e.inner) ++ ([] ++ e.closing :: e.after))[e.hi]? = some e.closing := by
    rw [List.getElem?_append_right (Nat.le_of_eq (length_front e.inner)), length_front, Nat.sub_self]
    rfl
  rw [← tokens_eq (List.append_nil e.inner).symm] at hget
  exact congrArg (Option.map Token.kind) hget

/-- What is opened between the brackets is paired between them. -/
theorem exists_partner {x : Nat × Kind} (h : e.inner = a ++ b) (hx : x ∈ openedFrom (e.lo + 1) [] a) :
    e.lo < x.1 ∧ x.1 < e.lo + 1 + a.length ∧ ∃ c, (ofTokens tokens).matching? x.1 = some c ∧
      e.lo + 1 + a.length ≤ c ∧ c < e.hi ∧ ∃ k, (ofTokens tokens).kind? c = some k ∧ k.isClosing = true := by
  have hstacked : Stacked (e.lo + 1 + a.length) (openedFrom (e.lo + 1) [] a) := (stacked_nil (e.lo + 1)).openedFrom a
  have hlo : e.lo < x.1 := by
    cases mem_openedFrom hx with
    | inl hx => cases hx
    | inr hx =>
      obtain ⟨_, _, _, -, hx, -⟩ := hx
      omega
  refine ⟨hlo, hstacked.below x hx, ?_⟩
  obtain hopen | ⟨c, hc⟩ := mem_openedFrom_or_paired (i := e.lo + 1 + a.length) hx b
  · rw [← openedFrom_append, ← h, e.level] at hopen
    cases hopen
  · obtain ⟨a', u, b', outer, rfl, rfl, hk, htop⟩ := mem_pairsFrom.1 hc
    have hinner : e.inner = (a ++ a') ++ u :: b' := by rw [h, List.append_assoc]
    have hstack : openedFrom 0 [] (e.before ++ e.opening :: (a ++ a')) =
        (x.1, u.kind) :: (outer ++ (e.lo, e.closing.kind) :: openedFrom 0 [] e.before) := by
      rw [e.top (a ++ a') (u :: b') hinner, openedFrom_append, htop, List.cons_append]
    have hpair : (x.1, e.lo + 1 + (a ++ a').length) ∈ pairsFrom 0 [] tokens := by
      refine mem_pairsFrom.2 ⟨_, u, b' ++ e.closing :: e.after, _, ?_, ?_, hk, hstack⟩
      · exact (tokens_eq hinner).trans (by simp)
      · rw [length_front, Nat.zero_add]
    refine ⟨_, matching?_of_mem_pairsFrom hpair, ?_, ?_, u.kind, kind?_inner hinner, ?_⟩
    · rw [List.length_append]
      omega
    · simp only [lo, hi, hinner, List.length_append, List.length_cons]
      omega
    · exact (hstacked.openedFrom a').closing (x.1, u.kind) (by rw [htop]; simp)

/-- A bracket inside the pair that is paired behind some position is open there. -/
theorem mem_of_partner (h : e.inner = a ++ b) {o c : Nat} (hlo : e.lo < o) (ho : o < e.lo + 1 + a.length)
    (hc : e.lo + 1 + a.length ≤ c) (hoc : (ofTokens tokens).matching? o = some c) :
    ∃ k, (o, k) ∈ openedFrom (e.lo + 1) [] a := by
  obtain ⟨front, u, rest, outer, hsplit, hlength, -, htop⟩ :=
    mem_pairsFrom.1 (mem_pairsFrom_of_lt hoc (Nat.lt_of_lt_of_le ho hc))
  rw [Nat.zero_add] at hlength
  have hprefix : e.before ++ e.opening :: a <+: front := by
    have hlength : (e.before ++ e.opening :: a).length ≤ front.length := by rw [length_front]; omega
    exact List.prefix_of_prefix_length_le ⟨_, (tokens_eq h).symm⟩ ⟨_, hsplit.symm⟩ hlength
  obtain ⟨more, rfl⟩ := hprefix
  have hmem : (o, u.kind) ∈ openedFrom 0 [] (e.before ++ e.opening :: a) :=
    mem_openedFrom_front (by rw [htop]; simp) (by rw [length_front, Nat.zero_add]; exact ho)
  have hfalling := ((stacked_nil 0).openedFrom (e.before ++ e.opening :: a)).falling
  rw [e.top a b h] at hmem hfalling
  cases List.mem_append.1 hmem with
  | inl hmem => exact ⟨u.kind, hmem⟩
  | inr hmem =>
    cases List.mem_cons.1 hmem with
    | inl hmem => exact absurd hlo (Nat.not_lt.2 (Nat.le_of_eq (congrArg Prod.fst hmem)))
    | inr hmem =>
      have hbelow := (List.pairwise_cons.1 (List.pairwise_append.1 hfalling).2.1).1 _ hmem
      exact absurd hbelow (Nat.not_lt.2 (Nat.le_of_lt hlo))

end BracketPair

/-- The pair of an opening bracket. -/
theorem mem_pairsFrom_of_opening {tokens : List Token} {o c : Nat} {k k' : Kind}
    (hk : (ofTokens tokens).kind? o = some k) (hopen : k.closing? = some k')
    (h : (ofTokens tokens).matching? o = some c) : (o, c) ∈ pairsFrom 0 [] tokens := by
  cases mem_pairsFrom_of_matching? h with
  | inl h => exact h
  | inr h =>
    obtain ⟨e, -, rfl⟩ := exists_bracketPair h
    rw [e.kind?_hi] at hk
    rw [← Option.some.inj hk, e.closes] at hopen
    cases hopen

/-- The pair of a bracket that opens nothing. -/
theorem mem_pairsFrom_of_closing {tokens : List Token} {o c : Nat} {k : Kind}
    (hk : (ofTokens tokens).kind? c = some k) (hclose : k.closing? = none)
    (h : (ofTokens tokens).matching? c = some o) : (o, c) ∈ pairsFrom 0 [] tokens := by
  cases mem_pairsFrom_of_matching? h with
  | inl h =>
    obtain ⟨e, rfl, -⟩ := exists_bracketPair h
    rw [e.kind?_lo] at hk
    rw [← Option.some.inj hk, e.opens] at hclose
    cases hclose
  | inr h => exact h

/-- Where brackets are open, the outermost of them, with the tokens before it and after it. -/
theorem exists_outermost {ts : List Token} (hne : openedFrom i [] ts ≠ []) :
    ∃ a u b k, ts = a ++ u :: b ∧ u.kind.closing? = some k ∧ openedFrom i [] a = [] ∧
      (i + a.length, k) ∈ openedFrom i [] (a ++ u :: b) := by
  obtain ⟨front, ⟨o, k⟩, hlast⟩ := (List.eq_nil_or_concat _).resolve_left hne
  have hmem : (o, k) ∈ openedFrom i [] ts := by rw [hlast]; simp
  obtain hnone | ⟨a, u, b, rfl, rfl, hk⟩ := mem_openedFrom hmem
  · cases hnone
  · refine ⟨a, u, b, k, rfl, hk, ?_, hmem⟩
    have hpush : openedStep (i + a.length) (openedFrom i [] a) u = [] ++ (i + a.length, k) :: openedFrom i [] a := by
      simp [openedStep, hk]
    have hstacked := ((stacked_nil i).openedFrom a).step u
    rw [hpush] at hstacked
    rw [openedFrom_append, openedFrom, hpush] at hmem hlast
    rw [hstacked.openedFrom_above hmem] at hlast
    -- The last entry is the bracket itself, so there is none below it.
    by_contra hcontra
    obtain ⟨rest, z, hz⟩ := (List.eq_nil_or_concat _).resolve_left hcontra
    have hlt : z.1 < i + a.length := ((stacked_nil i).openedFrom a).below z (by rw [hz]; simp)
    rw [hz, List.concat_eq_append, ← List.cons_append, ← List.append_assoc, List.concat_eq_append] at hlast
    rw [(List.append_singleton_inj.1 hlast).2] at hlt
    exact Nat.lt_irrefl _ hlt

end DocLint.Stream
