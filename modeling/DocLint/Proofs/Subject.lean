import DocLint.Proofs.Declaration

/-!
# What a comment documents, by kinds

The region of a comment and the parameters of the function there are found by positions in a stream.  Both can be
read off the kinds of the tokens before and after the comment, without any position, and then neither blanks nor
other doc comments matter: leaving them out changes nothing.
-/
namespace DocLint

/-- What a comment documents. -/
inductive Subject where
  | classHeader
  | functionHeader (params : Nat)
  | elsewhere
  deriving DecidableEq, Repr

/-- What a region stands for in a stream: a function is known by the number of its parameters. -/
def Region.subject (s : Stream) : Region → Subject
  | .classHeader _ => .classHeader
  | .functionHeader marker => .functionHeader (s.declaredParams marker)
  | .elsewhere => .elsewhere

def Stream.subject (s : Stream) (pos : Nat) : Subject := (s.classify pos).subject s

/-- Neither blank nor part of a doc comment. -/
def Kind.isCode (k : Kind) : Bool := !(k.isTrivia || k.isDoc)

/-- The kinds before the bracket that closes a bracket which is open.  `stack` holds what closes the brackets that
were opened inside, the last one first. -/
def enclosed (close : Kind) : List Kind → List Kind → Option (List Kind)
  | _, [] => none
  | stack, k :: ks =>
    match k.closing?, stack with
    | some c, _ => (enclosed close (c :: stack) ks).map (k :: ·)
    | none, [] => if close = k then some [] else (enclosed close [] ks).map (k :: ·)
    | none, c :: outer => (enclosed close (if c = k then outer else c :: outer) ks).map (k :: ·)

section Enclosed

variable {close k : Kind}

theorem enclosed_opening {c : Kind} (hk : k.closing? = some c) (stack ks : List Kind) :
    enclosed close stack (k :: ks) = (enclosed close (c :: stack) ks).map (k :: ·) := by
  simp only [enclosed, hk]

theorem enclosed_outermost (hk : k.closing? = none) (ks : List Kind) :
    enclosed close [] (k :: ks) = if close = k then some [] else (enclosed close [] ks).map (k :: ·) := by
  simp only [enclosed, hk]

theorem enclosed_inner (hk : k.closing? = none) (c : Kind) (outer ks : List Kind) :
    enclosed close (c :: outer) (k :: ks) =
      (enclosed close (if c = k then outer else c :: outer) ks).map (k :: ·) := by
  simp only [enclosed, hk]

end Enclosed

/-- The parameters between the first pair of parentheses. -/
def paramsOf : List Kind → Nat
  | [] => 0
  | k :: ks =>
    if k = .openParen then ((enclosed .closeParen [] ks).map (countSlots 0 false)).getD 0 else paramsOf ks

/-- What is documented before `after`, past the header of the class. -/
def subjectAfter : List Kind → Subject
  | [] => .elsewhere
  | k :: ks =>
    if k = .functionKeyword then .functionHeader (paramsOf ks)
    else if k = .comma ∨ k = .closeBrace then .elsewhere
    else subjectAfter ks

/-- What is documented between `before` and `after`. -/
def subjectOf (before after : List Kind) : Subject :=
  if before.any fun k => k = .openParen || k = .openBrace then subjectAfter after else .classHeader

namespace Stream

variable {kinds : List Kind} {ts before after : List Token}

/-- The first token of one of the kinds, if there is one. -/
theorem lacks_or_exists_first (kinds : List Kind) (ts : List Token) :
    Lacks kinds ts ∨ ∃ a t b, ts = a ++ t :: b ∧ Lacks kinds a ∧ t.kind ∈ kinds := by
  induction ts with
  | nil => exact .inl (by simp [Lacks])
  | cons t ts ih =>
    by_cases ht : t.kind ∈ kinds
    · exact .inr ⟨[], t, ts, rfl, by simp [Lacks], ht⟩
    · have cons : ∀ {a : List Token}, Lacks kinds a → Lacks kinds (t :: a) := by
        intro a ha u hu
        cases hu with
        | head => exact ht
        | tail _ hu => exact ha u hu
      cases ih with
      | inl h => exact .inl (cons h)
      | inr h =>
        obtain ⟨a, u, b, rfl, ha, hu⟩ := h
        exact .inr ⟨t :: a, u, b, rfl, cons ha, hu⟩

theorem findFrom_eq_none (h : Lacks kinds after) :
    (ofTokens (before ++ after)).findFrom kinds before.length = none := by
  rw [findFrom, ofTokens, List.drop_left, List.findIdx?_eq_none_iff.2 fun u hu => by simpa using h u hu]
  rfl

/-! ## Brackets -/

theorem isPrefix_of_enclosed {close : Kind} {stack ks inner : List Kind} (h : enclosed close stack ks = some inner) :
    inner <+: ks := by
  induction ks generalizing stack inner with
  | nil => cases h
  | cons k ks ih =>
    -- In all cases but the last bracket, `k` is put before what is found further on.
    have step : ∀ {stack' : List Kind}, (enclosed close stack' ks).map (k :: ·) = some inner → inner <+: k :: ks := by
      intro stack' h
      obtain ⟨inner', h', rfl⟩ := Option.map_eq_some_iff.1 h
      exact List.cons_prefix_cons.2 ⟨rfl, ih h'⟩
    unfold enclosed at h
    split at h
    · exact step h
    · split at h
      · cases h
        exact List.nil_prefix
      · exact step h
    · exact step h

/-- The partner of an open bracket depends on the tokens after it only.  The brackets opened since are on top of it. -/
theorem lookup_pairsFrom {i o : Nat} {close : Kind} {stack outer : List (Nat × Kind)} (ho : o < i)
    (hs : ∀ q ∈ stack, o < q.1) (ts : List Token) :
    ((pairsFrom i (stack ++ (o, close) :: outer) ts).flatMap fun p => [p, (p.2, p.1)]).lookup o =
      (enclosed close (stack.map Prod.snd) (ts.map Token.kind)).map (i + ·.length) := by
  induction ts generalizing i stack with
  | nil => rfl
  | cons t ts ih =>
    have next : ∀ x : Option (List Kind), (x.map (t.kind :: ·)).map (i + ·.length) = x.map (i + 1 + ·.length) := by
      intro x
      cases x with
      | none => rfl
      | some ks => simp only [Option.map_some, List.length_cons, Option.some.injEq]; omega
    have ho' : o < i + 1 := by omega
    rw [List.map_cons]
    cases hk : t.kind.closing? with
    | some c =>
      have hpush : ∀ q ∈ (i, c) :: stack, o < q.1 := by simpa [ho] using hs
      rw [pairsFrom_opening hk, ← List.cons_append, ih ho' hpush, enclosed_opening hk, next]
      rfl
    | none =>
      cases stack with
      | nil =>
        rw [List.map_nil, enclosed_outermost hk]
        by_cases hc : close = t.kind
        · subst hc
          simp [pairsFrom_closing hk]
        · have hpass : ∀ q ∈ ([] ++ (o, close) :: outer).head?, q.2 ≠ t.kind := by simpa using hc
          rw [pairsFrom_passed hk hpass, ih ho' hs, if_neg hc, next]
          rfl
      | cons q stack =>
        have hq : o < q.1 := hs q (by simp)
        have hrest : ∀ r ∈ stack, o < r.1 := fun r hr => hs r (List.mem_cons_of_mem q hr)
        rw [List.map_cons, enclosed_inner hk, next]
        by_cases hc : q.2 = t.kind
        · have hpair : pairsFrom i (q :: stack ++ (o, close) :: outer) (t :: ts) =
              (q.1, i) :: pairsFrom (i + 1) (stack ++ (o, close) :: outer) ts := by
            rw [← pairsFrom_closing hk, ← hc]
            rfl
          have hqo : (o == q.1) = false := beq_false_of_ne (by omega)
          have hio : (o == i) = false := beq_false_of_ne (by omega)
          rw [hpair, if_pos hc, ← ih ho' hrest]
          simp [List.lookup_cons, hqo, hio]
        · have hpass : ∀ r ∈ (q :: stack ++ (o, close) :: outer).head?, r.2 ≠ t.kind := by simpa using hc
          rw [pairsFrom_passed hk hpass, ih ho' hs, if_neg hc]
          rfl

/-- The partner of an opening bracket, by the kinds after it. -/
theorem matching?_append {t : Token} {close : Kind} (ht : t.kind.closing? = some close) (before after : List Token) :
    (ofTokens (before ++ t :: after)).matching? before.length =
      (enclosed close [] (after.map Token.kind)).map (before.length + 1 + ·.length) := by
  have hnone : ∀ o ∈ ([] : List (Nat × Kind)), o.1 < 0 := by simp
  obtain ⟨ps, left, hps, -, h⟩ := pairsFrom_append hnone before
  rw [Nat.zero_add] at hps h
  have hearlier : (ps.flatMap fun p => [p, (p.2, p.1)]).lookup before.length = none := by
    refine List.lookup_eq_none_iff.2 fun q hq => ?_
    obtain ⟨p, hp, hq⟩ := List.mem_flatMap.1 hq
    have := hps p hp
    simp only [List.mem_cons, List.not_mem_nil, or_false] at hq
    cases hq with
    | inl hq => subst hq; simp; omega
    | inr hq => subst hq; simp; omega
  have hlater := @lookup_pairsFrom (before.length + 1) before.length close [] left (Nat.lt_succ_self _) (by simp) after
  rw [matching?, ofTokens, h, pairsFrom_opening ht]
  simp only [List.flatMap_append, List.lookup_append, hearlier, Option.none_or]
  exact hlater

/-- The kinds between two tokens. -/
theorem map_kind_between (before after : List Token) (t : Token) {inner : List Kind}
    (h : inner <+: after.map Token.kind) :
    ((ofTokens (before ++ t :: after)).between before.length (before.length + 1 + inner.length)).map
      (fun p => p.2.kind) = inner := by
  obtain ⟨rest, hrest⟩ := h
  obtain ⟨a, b, rfl, rfl, -⟩ := List.map_eq_append_iff.1 hrest.symm
  rw [List.length_map, between_ofTokens, List.map_map]
  have hkinds := congrArg (List.map Token.kind) (List.zipIdx_map_fst (before.length + 1) a)
  rw [List.map_map] at hkinds
  exact hkinds

theorem paramsOf_append {ks : List Kind} (h : .openParen ∉ ks) (more : List Kind) :
    paramsOf (ks ++ more) = paramsOf more := by
  induction ks with
  | nil => rfl
  | cons k ks ih =>
    have hk : k ≠ .openParen := fun hk => h (by simp [hk])
    rw [List.cons_append, paramsOf, if_neg hk, ih fun hks => h (List.mem_cons_of_mem k hks)]

theorem declaredParams_append (before after : List Token) :
    (ofTokens (before ++ after)).declaredParams before.length = paramsOf (after.map Token.kind) := by
  have notMem : ∀ {ts : List Token}, Lacks [.openParen] ts → .openParen ∉ ts.map Token.kind := by
    intro ts h hm
    obtain ⟨u, hu, hk⟩ := List.mem_map.1 hm
    exact h u hu (by simp [hk])
  cases lacks_or_exists_first [.openParen] after with
  | inl h =>
    have hnone := paramsOf_append (notMem h) []
    rw [List.append_nil] at hnone
    rw [declaredParams, findFrom_eq_none h, hnone]
    rfl
  | inr h =>
    obtain ⟨a, t, b, rfl, ha, ht⟩ := h
    have ht : t.kind = .openParen := List.mem_singleton.1 ht
    have hassoc : before ++ (a ++ t :: b) = (before ++ a) ++ t :: b := (List.append_assoc before a (t :: b)).symm
    have hclose : t.kind.closing? = some .closeParen := by rw [ht]; rfl
    have hmatch := matching?_append hclose (before ++ a) b
    rw [List.length_append] at hmatch
    rw [declaredParams, findFrom_eq_some ha (by simp [ht]), List.map_append, paramsOf_append (notMem ha),
      List.map_cons, ht, paramsOf, if_pos rfl]
    simp only [hassoc, hmatch]
    cases hi : enclosed .closeParen [] (b.map Token.kind) with
    | none => rfl
    | some inner =>
      have hbetween := map_kind_between (before ++ a) b t (isPrefix_of_enclosed hi)
      rw [List.length_append] at hbetween
      simp only [Option.map_some, hbetween, Option.getD_some]

/-! ## What stands before and after a comment -/

theorem subjectAfter_append {ks : List Kind} (h : ∀ k ∈ ks, k ∉ [Kind.functionKeyword, .comma, .closeBrace])
    (more : List Kind) : subjectAfter (ks ++ more) = subjectAfter more := by
  induction ks with
  | nil => rfl
  | cons k ks ih =>
    have hk := h k (by simp)
    simp only [List.mem_cons, List.not_mem_nil, or_false, not_or] at hk
    rw [List.cons_append, subjectAfter, if_neg hk.1, if_neg (not_or.2 hk.2),
      ih fun l hl => h l (List.mem_cons_of_mem k hl)]

/-- A declaration that ends before the next function keeps a comment from documenting it. -/
theorem functionMarker?_eq_none {a b : List Token} {t : Token}
    (ha : Lacks [.functionKeyword, .comma, .closeBrace] a) (ht : t.kind ∈ [Kind.comma, .closeBrace]) :
    (ofTokens (before ++ (a ++ t :: b))).functionMarker? before.length = none := by
  have hstop : Lacks [.comma, .closeBrace] a := fun u hu hk => ha u hu (List.mem_cons_of_mem _ hk)
  have hfun : Lacks [.functionKeyword] (a ++ [t]) := by
    intro u hu hk
    cases List.mem_append.1 hu with
    | inl hu => exact ha u hu (by simp_all)
    | inr hu =>
      rw [List.mem_singleton.1 hu] at hk
      simp_all
  unfold functionMarker?
  rw [findFrom_eq_some hstop ht]
  cases hm : (ofTokens (before ++ (a ++ t :: b))).findFrom [.functionKeyword] before.length with
  | none => rfl
  | some marker =>
    rw [List.append_cons] at hm
    have hle := le_of_findFrom hfun hm
    rw [List.length_append, List.length_singleton] at hle
    have hlt : before.length + a.length < marker := by omega
    simp [hlt]

theorem subject_functionMarker (before after : List Token) :
    (match (ofTokens (before ++ after)).functionMarker? before.length with
      | some marker => Region.functionHeader marker
      | none => .elsewhere).subject (ofTokens (before ++ after)) = subjectAfter (after.map Token.kind) := by
  have apart : ∀ {ts : List Token}, Lacks [.functionKeyword, .comma, .closeBrace] ts →
      ∀ k ∈ ts.map Token.kind, k ∉ [Kind.functionKeyword, .comma, .closeBrace] := by
    intro ts h k hk
    obtain ⟨u, hu, rfl⟩ := List.mem_map.1 hk
    exact h u hu
  cases lacks_or_exists_first [.functionKeyword, .comma, .closeBrace] after with
  | inl h =>
    have hfun : Lacks [.functionKeyword] after := fun u hu hk => h u hu (by simp_all)
    have hnone := subjectAfter_append (apart h) []
    rw [List.append_nil] at hnone
    rw [functionMarker?, findFrom_eq_none hfun, hnone]
    cases (ofTokens (before ++ after)).findFrom [.comma, .closeBrace] before.length <;> rfl
  | inr h =>
    obtain ⟨a, t, b, rfl, ha, ht⟩ := h
    rw [List.map_append, List.map_cons, subjectAfter_append (apart ha), subjectAfter]
    by_cases hk : t.kind = .functionKeyword
    · have hassoc : before ++ (a ++ t :: b) = (before ++ a) ++ t :: b := (List.append_assoc before a (t :: b)).symm
      have hparams := declaredParams_append (before ++ a) (t :: b)
      rw [List.length_append, ← hassoc, List.map_cons, hk, paramsOf, if_neg (by decide)] at hparams
      rw [functionMarker?_eq_some ha hk, if_pos hk]
      simp only [Region.subject, hparams]
    · have ht : t.kind ∈ [Kind.comma, .closeBrace] := (List.mem_cons.1 ht).resolve_left hk
      rw [functionMarker?_eq_none ha ht, if_neg hk, if_pos (by simpa using ht)]
      rfl

/-- What a comment documents can be read off the kinds before and after it. -/
theorem subject_append {t : Token} (ht : t.kind ∉ [Kind.openParen, .openBrace]) (before after : List Token) :
    (ofTokens (before ++ t :: after)).subject before.length =
      subjectOf (before.map Token.kind) ((t :: after).map Token.kind) := by
  have brackets : ∀ {ts : List Token}, Lacks [.openParen, .openBrace] ts ↔
      (ts.map Token.kind).any (fun k => k = .openParen || k = .openBrace) = false := by
    intro ts
    simp [Lacks]
  unfold subject classify subjectOf
  cases lacks_or_exists_first [.openParen, .openBrace] before with
  | inl h =>
    have hall : Lacks [.openParen, .openBrace] (before ++ [t]) := by
      intro u hu
      cases List.mem_append.1 hu with
      | inl hu => exact h u hu
      | inr hu => rw [List.mem_singleton.1 hu]; exact ht
    have hlt : before.length < (ofTokens (before ++ t :: after)).classBoundary := by
      unfold classBoundary
      cases hf : (ofTokens (before ++ t :: after)).findFrom [.openParen, .openBrace] 0 with
      | none => simp [size, ofTokens]
      | some p =>
        have hassoc : before ++ t :: after = [] ++ ((before ++ [t]) ++ after) := by simp
        rw [hassoc] at hf
        have hle := @le_of_findFrom _ [] _ after p hall hf
        rw [List.length_append, List.length_singleton, List.length_nil] at hle
        simp only [Option.getD_some]
        omega
    rw [if_pos hlt, brackets.1 h]
    rfl
  | inr h =>
    obtain ⟨a, u, b, rfl, ha, hu⟩ := h
    have hbound : (ofTokens (a ++ u :: b ++ t :: after)).classBoundary = a.length := by
      rw [List.append_assoc, List.cons_append]
      exact classBoundary_eq ha hu
    have hnot : ¬ (a ++ u :: b).length < a.length := by
      rw [List.length_append]
      omega
    have hany : ((a ++ u :: b).map Token.kind).any (fun k => k = .openParen || k = .openBrace) = true := by
      rw [← Bool.not_eq_false, ← brackets]
      exact fun hl => hl u (by simp) hu
    rw [hbound, if_neg hnot, hany, if_pos rfl]
    exact subject_functionMarker (a ++ u :: b) (t :: after)

end Stream

/-! ## Kinds that do not count -/

section Code

variable {k : Kind}

theorem Kind.closing?_of_not_isCode (h : k.isCode = false) : k.closing? = none := by
  cases k <;> first | rfl | cases h

theorem Kind.isClosing_of_not_isCode (h : k.isCode = false) : k.isClosing = false := by
  cases k <;> first | rfl | cases h

theorem Kind.isClosing_of_closing? {c : Kind} (h : k.closing? = some c) : c.isClosing = true := by
  cases k <;> cases h <;> rfl

theorem countSlots_filter (depth : Nat) (filled : Bool) (ks : List Kind) :
    countSlots depth filled (ks.filter Kind.isCode) = countSlots depth filled ks := by
  induction ks generalizing depth filled with
  | nil => rfl
  | cons k ks ih =>
    by_cases hk : k.isCode = true
    · simp only [List.filter_cons, hk, if_true, countSlots, ih]
    · have hk := Bool.eq_false_iff.2 hk
      have hcomma : k ≠ .comma := by rintro rfl; cases hk
      have hsilent : (k.isTrivia || k.isDoc) = true := by rwa [Kind.isCode, Bool.not_eq_false'] at hk
      simp [hk, countSlots, hcomma, Kind.closing?_of_not_isCode hk, Kind.isClosing_of_not_isCode hk, hsilent, ih]

theorem enclosed_filter {close : Kind} {stack : List Kind} (hc : close.isClosing = true)
    (hs : ∀ c ∈ stack, c.isClosing = true) (ks : List Kind) :
    enclosed close stack (ks.filter Kind.isCode) = (enclosed close stack ks).map (·.filter Kind.isCode) := by
  induction ks generalizing stack with
  | nil => rfl
  | cons k ks ih =>
    by_cases hk : k.isCode = true
    · -- A kind that counts leads to the same stack on both sides.
      have step : ∀ x : Option (List Kind), (x.map (·.filter Kind.isCode)).map (k :: ·) =
          (x.map (k :: ·)).map (·.filter Kind.isCode) := by
        intro x
        cases x <;> simp [hk]
      rw [List.filter_cons, if_pos hk]
      cases ho : k.closing? with
      | some c =>
        have hpush : ∀ d ∈ c :: stack, d.isClosing = true := by
          intro d hd
          cases hd with
          | head => exact Kind.isClosing_of_closing? ho
          | tail _ hd => exact hs d hd
        rw [enclosed_opening ho, enclosed_opening ho, ih hpush, step]
      | none =>
        cases stack with
        | nil =>
          rw [enclosed_outermost ho, enclosed_outermost ho, ih hs, step]
          split <;> rfl
        | cons c outer =>
          have hpop : ∀ d ∈ if c = k then outer else c :: outer, d.isClosing = true := by
            intro d hd
            split at hd
            · exact hs d (List.mem_cons_of_mem c hd)
            · exact hs d hd
          rw [enclosed_inner ho, enclosed_inner ho, ih hpop, step]
    · -- One that does not count closes nothing.
      have hk := Bool.eq_false_iff.2 hk
      have other : ∀ c : Kind, c.isClosing = true → c ≠ k := by
        intro c h hck
        rw [hck, Kind.isClosing_of_not_isCode hk] at h
        cases h
      have skip : ∀ x : Option (List Kind), (x.map (k :: ·)).map (·.filter Kind.isCode) =
          x.map (·.filter Kind.isCode) := by
        intro x
        cases x <;> simp [hk]
      have ho := Kind.closing?_of_not_isCode hk
      rw [List.filter_cons, hk, if_neg Bool.false_ne_true, ih hs]
      cases stack with
      | nil => rw [enclosed_outermost ho, if_neg (other close hc), skip]
      | cons c outer => rw [enclosed_inner ho, if_neg (other c (hs c (by simp))), skip]

theorem paramsOf_filter (ks : List Kind) : paramsOf (ks.filter Kind.isCode) = paramsOf ks := by
  induction ks with
  | nil => rfl
  | cons k ks ih =>
    by_cases hp : k = .openParen
    · subst hp
      have hcount : countSlots 0 false ∘ List.filter Kind.isCode = countSlots 0 false := by
        funext ks
        exact countSlots_filter 0 false ks
      have hcode : (Kind.openParen :: ks).filter Kind.isCode = .openParen :: ks.filter Kind.isCode := rfl
      rw [hcode, paramsOf, paramsOf, if_pos rfl, if_pos rfl, enclosed_filter rfl (by simp), Option.map_map, hcount]
    · rw [paramsOf, if_neg hp, ← ih]
      by_cases hk : k.isCode = true
      · rw [List.filter_cons, if_pos hk, paramsOf, if_neg hp]
      · rw [List.filter_cons, if_neg hk]

theorem subjectAfter_filter (ks : List Kind) : subjectAfter (ks.filter Kind.isCode) = subjectAfter ks := by
  induction ks with
  | nil => rfl
  | cons k ks ih =>
    by_cases hk : k.isCode = true
    · rw [List.filter_cons, if_pos hk, subjectAfter, subjectAfter, ih, paramsOf_filter]
    · have hfun : k ≠ .functionKeyword := by rintro rfl; exact hk rfl
      have hstop : ¬ (k = .comma ∨ k = .closeBrace) := by
        rintro (rfl | rfl) <;> exact hk rfl
      rw [List.filter_cons, if_neg hk, ih, subjectAfter, if_neg hfun, if_neg hstop]

/-- Blanks and doc comments around a comment do not change what it documents. -/
theorem subjectOf_filter (before after : List Kind) :
    subjectOf (before.filter Kind.isCode) (after.filter Kind.isCode) = subjectOf before after := by
  have hbrackets : (before.filter Kind.isCode).any (fun k => k = .openParen || k = .openBrace) =
      before.any fun k => k = .openParen || k = .openBrace := by
    rw [List.any_filter]
    congr 1
    funext k
    cases k <;> rfl
  rw [subjectOf, subjectOf, hbrackets, subjectAfter_filter]

end Code
end DocLint
