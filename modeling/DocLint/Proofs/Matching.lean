import DocLint.Proofs.Brackets

/-!
# Brackets that belong together

Where every opening bracket is closed in its turn, it is plain which brackets belong together.  The index finds these
pairs wherever such tokens stand, whatever is open before them and whatever follows.  In any token list, its pairs lie
inside one another or apart: a bracket that is opened inside a pair has its partner there too.
-/
namespace DocLint

def Kind.isBracket (k : Kind) : Bool := k.closing?.isSome || k.isClosing

theorem Kind.isBracket_eq_false {k : Kind} (h : k.isBracket = false) : k.closing? = none ∧ k.isClosing = false := by
  cases k <;> first | exact ⟨rfl, rfl⟩ | cases h

theorem Kind.closing?_of_isClosing {k : Kind} (h : k.isClosing = true) : k.closing? = none := by
  cases k <;> first | rfl | cases h

namespace Stream

/-! ## Well-bracketed tokens -/

/-- Tokens in which every bracket has its partner. -/
inductive WellBracketed : List Token → Prop
  | nil : WellBracketed []
  | plain {t : Token} {ts : List Token} (kind : t.kind.isBracket = false) (rest : WellBracketed ts) :
      WellBracketed (t :: ts)
  | pair {opening closing : Token} {inner ts : List Token} (kinds : opening.kind.closing? = some closing.kind)
      (within : WellBracketed inner) (rest : WellBracketed ts) : WellBracketed (opening :: (inner ++ closing :: ts))

/-- Two brackets with well-bracketed tokens between them belong together. -/
def Partners (ts : List Token) (p q : Nat) : Prop :=
  ∃ a opening inner closing b, ts = a ++ opening :: (inner ++ closing :: b) ∧
    opening.kind.closing? = some closing.kind ∧ WellBracketed inner ∧ p = a.length ∧ q = a.length + 1 + inner.length

/-- Do some tokens close what is open before them, and whatever they open themselves? -/
def closesAll : List Kind → List Token → Bool
  | stack, [] => stack.isEmpty
  | stack, t :: ts =>
    match t.kind.closing? with
    | some k => closesAll (k :: stack) ts
    | none =>
      if t.kind.isClosing then
        match stack with
        | [] => false
        | k :: outer => k = t.kind && closesAll outer ts
      else closesAll stack ts

section ClosesAll

variable {t : Token} {ts : List Token} {stack : List Kind}

theorem closesAll_opening {k : Kind} (hk : t.kind.closing? = some k) :
    closesAll stack (t :: ts) = closesAll (k :: stack) ts := by
  simp only [closesAll, hk]

theorem closesAll_closing (hk : t.kind.isClosing = true) :
    closesAll (t.kind :: stack) (t :: ts) = closesAll stack ts := by
  simp [closesAll, Kind.closing?_of_isClosing hk, hk]

theorem closesAll_plain (hk : t.kind.isBracket = false) : closesAll stack (t :: ts) = closesAll stack ts := by
  obtain ⟨hopen, hclose⟩ := Kind.isBracket_eq_false hk
  simp [closesAll, hopen, hclose]

/-- Tokens that fall into well-bracketed parts, with the closing brackets of `stack` between them. -/
def Splits : List Kind → List Token → Prop
  | [], ts => WellBracketed ts
  | k :: outer, ts => ∃ inner closing rest, ts = inner ++ closing :: rest ∧ WellBracketed inner ∧ closing.kind = k ∧
      Splits outer rest

theorem Splits.plain (h : Splits stack ts) (hk : t.kind.isBracket = false) : Splits stack (t :: ts) := by
  cases stack with
  | nil => exact .plain hk h
  | cons k outer =>
    obtain ⟨inner, closing, rest, rfl, hinner, hc, hrest⟩ := h
    exact ⟨t :: inner, closing, rest, rfl, .plain hk hinner, hc, hrest⟩

theorem Splits.pair {closing : Token} {inner : List Token} (h : Splits stack ts)
    (hk : t.kind.closing? = some closing.kind) (hinner : WellBracketed inner) :
    Splits stack (t :: (inner ++ closing :: ts)) := by
  cases stack with
  | nil => exact .pair hk hinner h
  | cons k outer =>
    obtain ⟨first, last, rest, rfl, hfirst, hlast, hrest⟩ := h
    exact ⟨t :: (inner ++ closing :: first), last, rest, by simp, .pair hk hinner hfirst, hlast, hrest⟩

theorem splits_of_closesAll (h : closesAll stack ts = true) : Splits stack ts := by
  induction ts generalizing stack with
  | nil =>
    obtain rfl := List.isEmpty_iff.1 h
    exact .nil
  | cons t ts ih =>
    cases hk : t.kind.closing? with
    | some k =>
      rw [closesAll_opening hk] at h
      obtain ⟨inner, closing, rest, rfl, hinner, rfl, hrest⟩ := ih h
      exact hrest.pair hk hinner
    | none =>
      by_cases hc : t.kind.isClosing = true
      · cases stack with
        | nil => simp [closesAll, hk, hc] at h
        | cons k outer =>
          simp only [closesAll, hk, hc, if_true, Bool.and_eq_true, decide_eq_true_eq] at h
          exact ⟨[], t, ts, rfl, .nil, h.1.symm, ih h.2⟩
      · have hplain : t.kind.isBracket = false := by simpa [Kind.isBracket, hk] using hc
        rw [closesAll_plain hplain] at h
        exact (ih h).plain hplain

theorem WellBracketed.closesAll_append (h : WellBracketed ts) (stack : List Kind) (more : List Token) :
    closesAll stack (ts ++ more) = closesAll stack more := by
  induction h generalizing stack more with
  | nil => rfl
  | plain hk _ ih => rw [List.cons_append, closesAll_plain hk, ih]
  | @pair opening closing inner ts hk _ _ ihinner ihrest =>
    have hassoc : opening :: (inner ++ closing :: ts) ++ more = opening :: (inner ++ closing :: (ts ++ more)) := by simp
    rw [hassoc, closesAll_opening hk, ihinner, closesAll_closing (Kind.isClosing_of_closing? hk), ihrest]

theorem wellBracketed_iff : WellBracketed ts ↔ closesAll [] ts = true := by
  constructor
  · intro h
    have hall := h.closesAll_append [] []
    rw [List.append_nil] at hall
    exact hall
  · exact splits_of_closesAll

instance : DecidablePred WellBracketed := fun _ => decidable_of_iff _ wellBracketed_iff.symm

end ClosesAll

/-! ## Partners -/

section Partners

variable {i p q : Nat} {opened : List (Nat × Kind)} {ts tokens : List Token}

/-- Well-bracketed tokens leave open what was open before. -/
theorem WellBracketed.openedFrom_eq (h : WellBracketed ts) (hs : Stacked i opened) :
    openedFrom i opened ts = opened := by
  induction h generalizing i opened with
  | nil => rfl
  | @plain t ts hk _ ih =>
    obtain ⟨hopen, hclose⟩ := Kind.isBracket_eq_false hk
    have hstay : openedStep i opened t = opened := by
      cases opened with
      | nil => simp [openedStep, hopen]
      | cons x outer =>
        have hne : x.2 ≠ t.kind := by
          intro he
          have hx := hs.closing x (by simp)
          rw [he, hclose] at hx
          cases hx
        simp [openedStep, hopen, hne]
    rw [openedFrom, hstay, ih hs.skip]
  | @pair opening closing inner ts hk _ _ ihinner ihrest =>
    have hpush : openedStep i opened opening = (i, closing.kind) :: opened := by simp [openedStep, hk]
    have hpop : openedStep (i + 1 + inner.length) ((i, closing.kind) :: opened) closing = opened := by
      simp [openedStep, Kind.closing?_of_isClosing (Kind.isClosing_of_closing? hk)]
    have hopening := hs.step opening
    rw [hpush] at hopening
    have hclosing := (hopening.openedFrom inner).step closing
    rw [ihinner hopening, hpop] at hclosing
    rw [openedFrom, hpush, openedFrom_append, ihinner hopening, openedFrom, hpop, ihrest hclosing]

theorem Partners.mem_pairsFrom (h : Partners tokens p q) : (p, q) ∈ pairsFrom 0 [] tokens := by
  obtain ⟨a, opening, inner, closing, b, rfl, hk, hinner, rfl, rfl⟩ := h
  have hpush : openedStep a.length (openedFrom 0 [] a) opening =
      (a.length, closing.kind) :: openedFrom 0 [] a := by simp [openedStep, hk]
  have hstacked := ((stacked_nil 0).openedFrom a).step opening
  rw [Nat.zero_add, hpush] at hstacked
  refine mem_pairsFrom.2 ⟨a ++ opening :: inner, closing, b, openedFrom 0 [] a, by simp, ?_, ?_, ?_⟩
  · rw [List.length_append, List.length_cons]
    omega
  · exact Kind.closing?_of_isClosing (Kind.isClosing_of_closing? hk)
  · rw [openedFrom_append, openedFrom, Nat.zero_add, hpush, hinner.openedFrom_eq hstacked]

theorem Partners.append (h : Partners ts p q) (before after : List Token) :
    Partners (before ++ (ts ++ after)) (before.length + p) (before.length + q) := by
  obtain ⟨a, opening, inner, closing, b, rfl, hk, hinner, rfl, rfl⟩ := h
  refine ⟨before ++ a, opening, inner, closing, b ++ after, by simp, hk, hinner, ?_, ?_⟩
  · rw [List.length_append]
  · rw [List.length_append]
    omega

/-- Some bracket belongs to the one at `p`. -/
def HasPartner (ts : List Token) (p : Nat) : Prop := ∃ q, Partners ts p q ∨ Partners ts q p

theorem HasPartner.append (h : HasPartner ts p) (before after : List Token) :
    HasPartner (before ++ (ts ++ after)) (before.length + p) := by
  obtain ⟨q, h⟩ := h
  exact ⟨before.length + q, h.imp (·.append before after) (·.append before after)⟩

theorem WellBracketed.hasPartner (h : WellBracketed ts) {t : Token} (ht : ts[p]? = some t)
    (hk : t.kind.isBracket = true) : HasPartner ts p := by
  induction h generalizing p with
  | nil => cases ht
  | @plain u ts hu _ ih =>
    cases p with
    | zero =>
      obtain rfl := Option.some.inj ht
      rw [hu] at hk
      cases hk
    | succ p =>
      have hrest := (ih ht).append [u] []
      rwa [List.append_nil, List.length_singleton, Nat.add_comm] at hrest
  | @pair opening closing inner ts hkinds hinner _ ihinner ihrest =>
    have hself : Partners (opening :: (inner ++ closing :: ts)) 0 (inner.length + 1) :=
      ⟨[], opening, inner, closing, ts, rfl, hkinds, hinner, rfl, by simp [Nat.add_comm]⟩
    cases p with
    | zero => exact ⟨inner.length + 1, .inl hself⟩
    | succ p =>
      rw [List.getElem?_cons_succ] at ht
      -- The bracket stands before the closing one, is that one, or stands behind it.
      rcases Nat.lt_trichotomy p inner.length with hlt | rfl | hgt
      · rw [List.getElem?_append_left hlt] at ht
        have hwithin := (ihinner ht).append [opening] (closing :: ts)
        rwa [List.length_singleton, Nat.add_comm] at hwithin
      · exact ⟨0, .inr hself⟩
      · obtain ⟨r, rfl⟩ : ∃ r, p = inner.length + (r + 1) := ⟨p - inner.length - 1, by omega⟩
        rw [List.getElem?_append_right (Nat.le_add_right _ _), Nat.add_sub_cancel_left, List.getElem?_cons_succ] at ht
        have hbehind := (ihrest ht).append (opening :: (inner ++ [closing])) []
        have hpos : (opening :: (inner ++ [closing])).length + r = inner.length + (r + 1) + 1 := by
          simp only [List.length_cons, List.length_append, List.length_nil]
          omega
        rw [hpos] at hbehind
        simpa using hbehind

end Partners

/-! ## The pairs of the index -/

variable {tokens : List Token} {o o' c p q : Nat}

/-- A closing bracket is in one pair only. -/
theorem eq_of_mem_pairsFrom {i : Nat} {opened : List (Nat × Kind)} (h : (o, c) ∈ pairsFrom i opened tokens)
    (h' : (o', c) ∈ pairsFrom i opened tokens) : o = o' := by
  obtain ⟨a, u, b, outer, rfl, rfl, -, ha⟩ := mem_pairsFrom.1 h
  obtain ⟨a', u', b', outer', hsplit, hlength, -, ha'⟩ := mem_pairsFrom.1 h'
  obtain ⟨rfl, -⟩ := List.append_inj hsplit (by omega)
  rw [ha] at ha'
  exact congrArg Prod.fst (List.cons.inj ha').1

/-- The partner of a closing bracket. -/
theorem matching?_of_closing_mem_pairsFrom (h : (o, c) ∈ pairsFrom 0 [] tokens) :
    (ofTokens tokens).matching? c = some o := by
  have hmem : (c, o) ∈ (ofTokens tokens).pairs := List.mem_flatMap.2 ⟨(o, c), h, by simp⟩
  obtain ⟨o', ho'⟩ : ∃ o', (ofTokens tokens).matching? c = some o' := by
    refine Option.ne_none_iff_exists'.1 fun hnone => ?_
    have hne := List.lookup_eq_none_iff.1 hnone (c, o) hmem
    simp at hne
  obtain ⟨e, -, rfl⟩ := exists_bracketPair h
  have hpair := mem_pairsFrom_of_closing e.kind?_hi e.closes ho'
  rw [ho', eq_of_mem_pairsFrom hpair h]

theorem matching?_eq_some_iff : (ofTokens tokens).matching? p = some q ↔
    (p, q) ∈ pairsFrom 0 [] tokens ∨ (q, p) ∈ pairsFrom 0 [] tokens := by
  constructor
  · exact mem_pairsFrom_of_matching?
  · rintro (h | h)
    · exact matching?_of_mem_pairsFrom h
    · exact matching?_of_closing_mem_pairsFrom h

/-- A bracket that is opened inside a pair has its partner there. -/
theorem BracketPair.exists_partner_of_opening (e : BracketPair tokens) {k k' : Kind} (hlo : e.lo < o) (hhi : o < e.hi)
    (hk : (ofTokens tokens).kind? o = some k) (hopen : k.closing? = some k') :
    ∃ c, (ofTokens tokens).matching? o = some c ∧ o < c ∧ c < e.hi := by
  obtain ⟨r, rfl⟩ : ∃ r, o = e.lo + 1 + r := ⟨o - (e.lo + 1), by omega⟩
  have hr : r < e.inner.length := by
    simp only [lo, hi] at hhi
    omega
  have hsplit : e.inner = e.inner.take r ++ e.inner[r] :: e.inner.drop (r + 1) := by
    rw [List.getElem_cons_drop, List.take_append_drop]
  have hlength : (e.inner.take r).length = r := List.length_take_of_le (Nat.le_of_lt hr)
  have hkind := kind?_inner hsplit
  rw [hlength, hk] at hkind
  have hopen' : e.inner[r].kind.closing? = some k' := by rw [← Option.some.inj hkind, hopen]
  have hopened : (e.lo + 1 + r, k') ∈ openedFrom (e.lo + 1) [] (e.inner.take r ++ [e.inner[r]]) := by
    rw [openedFrom_append, hlength, openedFrom, openedFrom]
    simp [openedStep, hopen']
  obtain ⟨-, -, c, hmatch, hle, hlt, -⟩ := exists_partner (by rw [List.append_assoc]; exact hsplit) hopened
  refine ⟨c, hmatch, ?_, hlt⟩
  rw [List.length_append, hlength, List.length_singleton] at hle
  omega

/-! ## The matching of a token list -/

/-- What the index says of brackets. -/
structure Matching (s : Stream) : Prop where
  symm : ∀ p q, s.matching? p = some q ↔ s.matching? q = some p
  apart : ∀ p, s.matching? p ≠ some p
  /-- An opening bracket belongs to a later one that closes its kind. -/
  kinds : ∀ p q, s.matching? p = some q → p < q →
    ∃ k, s.kind? p = some k ∧ ∃ c, s.kind? q = some c ∧ k.closing? = some c
  nested : ∀ p q p' q', s.matching? p = some q → s.matching? p' = some q' → ¬ (p < p' ∧ p' < q ∧ q < q')
  /-- What is opened inside a pair is closed inside it. -/
  inside : ∀ p q o k, s.matching? p = some q → p < o → o < q → s.kind? o = some k → k.closing?.isSome = true →
    ∃ c, s.matching? o = some c ∧ o < c ∧ c < q
  /-- Partners in well-bracketed tokens are partners wherever these stand, and every bracket there has one. -/
  wellBracketed : ∀ before ts after, s.tokens = before ++ (ts ++ after) → WellBracketed ts →
    (∀ p q, Partners ts p q → s.matching? (before.length + p) = some (before.length + q)) ∧
    ∀ p t, ts[p]? = some t → t.kind.isBracket = true → HasPartner ts p

theorem exists_bracketPair_of_lt (h : (ofTokens tokens).matching? p = some q) (hlt : p < q) :
    ∃ e : BracketPair tokens, e.lo = p ∧ e.hi = q :=
  exists_bracketPair (mem_pairsFrom_of_lt h hlt)

theorem inside_of_matching? {k : Kind} (h : (ofTokens tokens).matching? p = some q) (hp : p < o) (hq : o < q)
    (hk : (ofTokens tokens).kind? o = some k) (hopen : k.closing?.isSome = true) :
    ∃ c, (ofTokens tokens).matching? o = some c ∧ o < c ∧ c < q := by
  obtain ⟨k', hk'⟩ := Option.isSome_iff_exists.1 hopen
  obtain ⟨e, rfl, rfl⟩ := exists_bracketPair_of_lt h (Nat.lt_trans hp hq)
  exact e.exists_partner_of_opening hp hq hk hk'

theorem kinds_of_matching? (h : (ofTokens tokens).matching? p = some q) (hlt : p < q) :
    ∃ k, (ofTokens tokens).kind? p = some k ∧ ∃ c, (ofTokens tokens).kind? q = some c ∧ k.closing? = some c := by
  obtain ⟨e, rfl, rfl⟩ := exists_bracketPair_of_lt h hlt
  exact ⟨_, e.kind?_lo, _, e.kind?_hi, e.opens⟩

/-- The brackets of every token list are matched as they should be. -/
theorem matching_ofTokens (tokens : List Token) : Matching (ofTokens tokens) where
  symm p q := by rw [matching?_eq_some_iff, matching?_eq_some_iff, or_comm]
  apart p h := by
    cases mem_pairsFrom_of_matching? h with
    | inl h => exact Nat.lt_irrefl p ((stacked_nil 0).lt_of_mem_pairsFrom h).1
    | inr h => exact Nat.lt_irrefl p ((stacked_nil 0).lt_of_mem_pairsFrom h).1
  kinds p q h hlt := kinds_of_matching? h hlt
  nested p q p' q' h h' := by
    rintro ⟨hp, hq, hlt⟩
    obtain ⟨k, hk, c, -, hclosing⟩ := kinds_of_matching? h' (Nat.lt_trans hq hlt)
    obtain ⟨c', hc', -, hlt'⟩ := inside_of_matching? h hp hq hk (by rw [hclosing]; rfl)
    rw [h'] at hc'
    rw [← Option.some.inj hc'] at hlt'
    exact Nat.lt_asymm hlt hlt'
  inside p q o k h hp hq hk hopen := inside_of_matching? h hp hq hk hopen
  wellBracketed before ts after hsplit h := by
    refine ⟨fun p q hpq => ?_, fun p t ht hk => h.hasPartner ht hk⟩
    have hpartners := hpq.append before after
    rw [← hsplit] at hpartners
    exact matching?_of_mem_pairsFrom hpartners.mem_pairsFrom

end Stream
end DocLint
