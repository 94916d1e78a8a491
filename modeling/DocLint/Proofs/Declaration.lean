import DocLint.Proofs.Index
import DocLint.Region

/-!
# Functions and their parameters

What a comment documents, and how many parameters the function there declares, is found by looking ahead from
token to token.  Each search is described by what stands between its start and its end.
-/
namespace DocLint

namespace Stream

variable {kinds : List Kind} {before between after : List Token} {t : Token}

theorem findFrom_eq_some (hlacks : Lacks kinds between) (ht : t.kind ∈ kinds) :
    (ofTokens (before ++ (between ++ t :: after))).findFrom kinds before.length =
      some (before.length + between.length) := by
  have hidx : (between ++ t :: after).findIdx? (fun t => kinds.contains t.kind) = some between.length := by
    rw [List.findIdx?_append, List.findIdx?_eq_none_iff.2 fun u hu => by simpa using hlacks u hu]
    simp [List.findIdx?_cons, ht]
  rw [findFrom, ofTokens, List.drop_left, hidx]
  rfl

theorem le_of_findFrom {p : Nat} (hlacks : Lacks kinds between)
    (h : (ofTokens (before ++ (between ++ after))).findFrom kinds before.length = some p) :
    before.length + between.length ≤ p := by
  rw [findFrom, ofTokens, List.drop_left, List.findIdx?_append,
    List.findIdx?_eq_none_iff.2 fun u hu => by simpa using hlacks u hu] at h
  obtain ⟨j, hj, rfl⟩ := Option.map_eq_some_iff.1 h
  obtain ⟨k, -, rfl⟩ := Option.map_eq_some_iff.1 hj
  omega

/-- A comment documents the next function if no declaration ends before it. -/
theorem functionMarker?_eq_some (hlacks : Lacks [.functionKeyword, .comma, .closeBrace] between)
    (ht : t.kind = .functionKeyword) :
    (ofTokens (before ++ (between ++ t :: after))).functionMarker? before.length =
      some (before.length + between.length) := by
  have hfun : Lacks [.functionKeyword] between := fun u hu hk => hlacks u hu (by simp_all)
  have hstop : Lacks [.comma, .closeBrace] (between ++ [t]) := by
    intro u hu
    rcases List.mem_append.1 hu with hu | hu
    · exact fun hk => hlacks u hu (List.mem_cons_of_mem _ hk)
    · rw [List.mem_singleton.1 hu, ht]
      decide
  unfold functionMarker?
  rw [findFrom_eq_some hfun (by simp [ht])]
  cases hs : (ofTokens (before ++ (between ++ t :: after))).findFrom [.comma, .closeBrace] before.length with
  | none => rfl
  | some stop =>
    rw [List.append_cons] at hs
    have hle := le_of_findFrom hstop hs
    have hlen : (between ++ [t]).length = between.length + 1 := by simp
    have hnot : ¬ stop < before.length + between.length := by omega
    simp [hnot]

/-- The class header ends at the first opening bracket. -/
theorem classBoundary_eq (hlacks : Lacks [.openParen, .openBrace] between)
    (ht : t.kind ∈ [Kind.openParen, .openBrace]) :
    (ofTokens (between ++ t :: after)).classBoundary = between.length := by
  have h : (ofTokens (between ++ t :: after)).findFrom [.openParen, .openBrace] 0 = some (0 + between.length) :=
    @findFrom_eq_some _ [] between after t hlacks ht
  rw [classBoundary, h, Nat.zero_add]
  rfl

/-! ## Brackets -/

variable {i : Nat} {opened : List (Nat × Kind)}

theorem pairsFrom_opening {k : Kind} (hk : t.kind.closing? = some k) (ts : List Token) :
    pairsFrom i opened (t :: ts) = pairsFrom (i + 1) ((i, k) :: opened) ts := by
  simp [pairsFrom, hk]

theorem pairsFrom_closing {o : Nat} (hk : t.kind.closing? = none) (ts : List Token) :
    pairsFrom i ((o, t.kind) :: opened) (t :: ts) = (o, i) :: pairsFrom (i + 1) opened ts := by
  simp [pairsFrom, hk]

/-- A token that closes nothing is passed over. -/
theorem pairsFrom_passed (hk : t.kind.closing? = none) (hne : ∀ o ∈ opened.head?, o.2 ≠ t.kind)
    (ts : List Token) : pairsFrom i opened (t :: ts) = pairsFrom (i + 1) opened ts := by
  cases opened with
  | nil => simp [pairsFrom, hk]
  | cons o opened =>
    have : o.2 ≠ t.kind := hne o rfl
    simp [pairsFrom, hk, this]

/-- What is paired among the tokens before, and what is open after them, stands before what follows. -/
theorem pairsFrom_append (ho : ∀ o ∈ opened, o.1 < i) (before : List Token) :
    ∃ ps left, (∀ q ∈ ps, q.1 < i + before.length ∧ q.2 < i + before.length) ∧
      (∀ o ∈ left, o.1 < i + before.length) ∧
      ∀ more, pairsFrom i opened (before ++ more) = ps ++ pairsFrom (i + before.length) left more := by
  induction before generalizing i opened with
  | nil => exact ⟨[], opened, by simp, ho, fun _ => rfl⟩
  | cons t ts ih =>
    have next : i + (t :: ts).length = i + 1 + ts.length := by rw [List.length_cons]; omega
    have ho' : ∀ o ∈ opened, o.1 < i + 1 := fun o h => Nat.lt_succ_of_lt (ho o h)
    rw [next]
    cases hk : t.kind.closing? with
    | some k =>
      have hpush : ∀ o ∈ (i, k) :: opened, o.1 < i + 1 := by simpa using ho'
      obtain ⟨ps, left, hps, hleft, h⟩ := ih hpush
      refine ⟨ps, left, hps, hleft, fun more => ?_⟩
      rw [List.cons_append, pairsFrom_opening hk, h]
    | none =>
      by_cases htop : ∃ o outer, opened = (o, t.kind) :: outer
      · obtain ⟨o, outer, rfl⟩ := htop
        obtain ⟨ps, left, hps, hleft, h⟩ := ih fun q hq => ho' q (List.mem_cons_of_mem _ hq)
        have hoi : o < i := ho (o, t.kind) (by simp)
        refine ⟨(o, i) :: ps, left, fun q hq => ?_, hleft, fun more => ?_⟩
        · rcases List.mem_cons.1 hq with rfl | hq
          · simp only
            omega
          · exact hps q hq
        · rw [List.cons_append, pairsFrom_closing hk, h, List.cons_append]
      · obtain ⟨ps, left, hps, hleft, h⟩ := ih ho'
        refine ⟨ps, left, hps, hleft, fun more => ?_⟩
        rw [List.cons_append, pairsFrom_passed hk, h]
        intro o hhead hkind
        obtain ⟨outer, rfl⟩ := List.head?_eq_some_iff.1 hhead
        exact htop ⟨o.1, outer, by rw [← hkind]⟩

/-- Tokens without brackets pair nothing. -/
theorem pairsFrom_plain {inner : List Token} (hplain : ∀ u ∈ inner, u.kind.closing? = none ∧ u.kind.isClosing = false)
    {o : Nat} {k : Kind} (hk : k.isClosing = true) (more : List Token) :
    pairsFrom i ((o, k) :: opened) (inner ++ more) = pairsFrom (i + inner.length) ((o, k) :: opened) more := by
  induction inner generalizing i with
  | nil => rfl
  | cons u inner ih =>
    obtain ⟨hopen, hclose⟩ := hplain u (by simp)
    have hne : k ≠ u.kind := by
      rintro rfl
      rw [hk] at hclose
      cases hclose
    have next : i + (u :: inner).length = i + 1 + inner.length := by rw [List.length_cons]; omega
    rw [List.cons_append, pairsFrom_passed hopen (by simpa using hne),
      ih fun v hv => hplain v (List.mem_cons_of_mem u hv), next]

/-- A pair of brackets with none between them is found, whatever stands before and after. -/
theorem matching?_eq_some {opening closing : Token} {inner : List Token}
    (hopen : opening.kind.closing? = some closing.kind) (hclosing : closing.kind.isClosing = true)
    (hplain : ∀ u ∈ inner, u.kind.closing? = none ∧ u.kind.isClosing = false) :
    (ofTokens (before ++ opening :: (inner ++ closing :: after))).matching? before.length =
      some (before.length + 1 + inner.length) := by
  have hnone : ∀ o ∈ ([] : List (Nat × Kind)), o.1 < 0 := by simp
  obtain ⟨ps, left, hps, -, h⟩ := pairsFrom_append hnone before
  rw [Nat.zero_add] at hps h
  have hclose : closing.kind.closing? = none := by
    cases hk : closing.kind <;> simp_all [Kind.isClosing, Kind.closing?]
  have hpairs : pairsFrom 0 [] (before ++ opening :: (inner ++ closing :: after)) =
      ps ++ (before.length, before.length + 1 + inner.length) ::
        pairsFrom (before.length + 1 + inner.length + 1) left after := by
    rw [h, pairsFrom_opening hopen, pairsFrom_plain hplain hclosing, pairsFrom_closing hclose]
  have hearlier : ∀ q ∈ ps.flatMap fun p => [p, (p.2, p.1)], q.1 ≠ before.length := by
    intro q hq
    obtain ⟨p, hp, hq⟩ := List.mem_flatMap.1 hq
    have := hps p hp
    simp only [List.mem_cons, List.not_mem_nil, or_false] at hq
    rcases hq with rfl | rfl
    · omega
    · simp only
      omega
  rw [matching?, ofTokens, hpairs]
  simp only [List.flatMap_append, List.flatMap_cons, List.lookup_append]
  rw [List.lookup_eq_none_iff.2 fun q hq => by simpa using (hearlier q hq).symm]
  simp

/-- The parameters of a function stand between the first pair of parentheses after it. -/
theorem declaredParams_eq {opening closing : Token} {inner : List Token} (hlacks : Lacks [.openParen] between)
    (hopen : opening.kind = .openParen) (hclose : closing.kind = .closeParen)
    (hplain : ∀ u ∈ inner, u.kind.closing? = none ∧ u.kind.isClosing = false) :
    (ofTokens (before ++ (between ++ opening :: (inner ++ closing :: after)))).declaredParams before.length =
      countSlots 0 false (inner.map Token.kind) := by
  have hassoc : before ++ (between ++ opening :: (inner ++ closing :: after)) =
      (before ++ between) ++ opening :: (inner ++ closing :: after) := by simp
  have hlen : before.length + between.length = (before ++ between).length := by simp
  have hpair : opening.kind.closing? = some closing.kind := by rw [hopen, hclose]; rfl
  have hclosing : closing.kind.isClosing = true := by rw [hclose]; rfl
  have hmatch := @matching?_eq_some (before ++ between) after opening closing inner hpair hclosing hplain
  rw [declaredParams, findFrom_eq_some hlacks (by simp [hopen]), hlen]
  simp only [hassoc, hmatch, between_ofTokens]
  have hkinds := congrArg (List.map Token.kind) (List.zipIdx_map_fst ((before ++ between).length + 1) inner)
  rw [List.map_map] at hkinds ⊢
  exact congrArg (countSlots 0 false) hkinds

/-- A comment after the class header documents the function after it, with the parameters between its parentheses. -/
theorem classify_function {tokens gap inner : List Token} {keyword opening closing : Token}
    (htokens : tokens = before ++ (between ++ keyword :: (gap ++ opening :: (inner ++ closing :: after))))
    (hb : (ofTokens tokens).classBoundary ≤ before.length)
    (hlacks : Lacks [.functionKeyword, .comma, .closeBrace] between) (hkey : keyword.kind = .functionKeyword)
    (hgap : Lacks [.openParen] gap) (hopen : opening.kind = .openParen) (hclose : closing.kind = .closeParen)
    (hplain : ∀ u ∈ inner, u.kind.closing? = none ∧ u.kind.isClosing = false) :
    ∃ marker, (ofTokens tokens).classify before.length = .functionHeader marker ∧
      (ofTokens tokens).declaredParams marker = countSlots 0 false (inner.map Token.kind) := by
  refine ⟨before.length + between.length, ?_, ?_⟩
  · rw [classify, if_neg (Nat.not_lt.2 hb), htokens, functionMarker?_eq_some hlacks hkey]
  · have hassoc : tokens = (before ++ between) ++ ((keyword :: gap) ++ opening :: (inner ++ closing :: after)) := by
      rw [htokens]
      simp
    have hlen : before.length + between.length = (before ++ between).length := by simp
    have hsearch : Lacks [.openParen] (keyword :: gap) := by
      intro u hu
      rcases List.mem_cons.1 hu with rfl | hu
      · rw [hkey]
        decide
      · exact hgap u hu
    rw [hassoc, hlen, declaredParams_eq hsearch hopen hclose hplain]

end Stream

/-! ## Parameters -/

/-- The kinds of the tokens of a parameter list. -/
def paramKinds : Nat → List Kind
  | 0 => []
  | 1 => [.identifier]
  | n + 2 => .identifier :: .comma :: .whitespace :: paramKinds (n + 1)

theorem mem_paramKinds {n : Nat} {k : Kind} (h : k ∈ paramKinds n) : k ∈ [Kind.identifier, .comma, .whitespace] := by
  fun_induction paramKinds n with
  | case1 => cases h
  | case2 => exact List.mem_cons.2 (.inl (List.mem_singleton.1 h))
  | case3 n ih =>
    simp only [List.mem_cons] at h
    rcases h with rfl | rfl | rfl | h
    · simp
    · simp
    · simp
    · exact ih h

theorem countSlots_paramKinds (n : Nat) : countSlots 0 false (paramKinds n) = n := by
  fun_induction paramKinds n with
  | case1 => rfl
  | case2 => rfl
  | case3 n ih =>
    have hslot : countSlots 0 false (.identifier :: .comma :: .whitespace :: paramKinds (n + 1)) =
        1 + countSlots 0 false (paramKinds (n + 1)) := rfl
    rw [hslot, ih]
    omega

end DocLint
