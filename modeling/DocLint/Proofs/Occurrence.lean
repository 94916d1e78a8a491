import DocLint.Proofs.Finding

/-!
# Tags and where they are first

The occurrences of a block are kept in the order of names, so that each name is found at most once.  What they say
is what the list of the block's tags says: a relevant tag is present if one of the tags has its name, and it is
first where the first of these stands.
-/
namespace DocLint

open Std (TransCmp OrientedCmp ReflOrd LawfulEqOrd)

namespace Occurrences

/-- Each name once, in order. -/
def Sorted (os : Occurrences) : Prop := os.Pairwise fun o p => compare o.tag p.tag = .lt

variable {os : Occurrences} {tag : String} {pos : Nat}

theorem mem_record {o : Occurrence} (h : o ∈ os.record tag pos) : o.tag = tag ∨ ∃ p ∈ os, p.tag = o.tag := by
  fun_induction record tag pos os with
  | case1 => exact .inl (by rw [List.mem_singleton.1 h])
  | case2 p os hlt =>
    rcases List.mem_cons.1 h with rfl | h
    · exact .inl rfl
    · exact .inr ⟨o, h, rfl⟩
  | case3 p os heq =>
    rcases List.mem_cons.1 h with rfl | h
    · exact .inr ⟨p, by simp, rfl⟩
    · exact .inr ⟨o, List.mem_cons_of_mem p h, rfl⟩
  | case4 p os hgt ih =>
    rcases List.mem_cons.1 h with rfl | h
    · exact .inr ⟨o, by simp, rfl⟩
    · refine (ih h).imp_right ?_
      rintro ⟨q, hq, he⟩
      exact ⟨q, List.mem_cons_of_mem p hq, he⟩

theorem Sorted.record (h : os.Sorted) (tag : String) (pos : Nat) : (os.record tag pos).Sorted := by
  fun_induction Occurrences.record tag pos os with
  | case1 => exact List.pairwise_singleton _ _
  | case2 p os hlt =>
    refine List.pairwise_cons.2 ⟨fun q hq => ?_, h⟩
    rcases List.mem_cons.1 hq with rfl | hq
    · exact hlt
    · exact TransCmp.lt_trans hlt ((List.pairwise_cons.1 h).1 q hq)
  | case3 p os heq =>
    obtain ⟨hp, hos⟩ := List.pairwise_cons.1 h
    exact List.pairwise_cons.2 ⟨hp, hos⟩
  | case4 p os hgt ih =>
    obtain ⟨hp, hos⟩ := List.pairwise_cons.1 h
    refine List.pairwise_cons.2 ⟨fun q hq => ?_, ih hos⟩
    rcases mem_record hq with hq | ⟨r, hr, hq⟩
    · rw [hq]
      exact OrientedCmp.lt_of_gt hgt
    · rw [← hq]
      exact hp r hr

theorem first?_cons (o : Occurrence) (os : Occurrences) (name : String) :
    first? (o :: os) name = if o.tag = name then some o.first else os.first? name := by
  by_cases h : o.tag = name <;> simp [first?, find?, h]

/-- A name that comes before all others is not among them. -/
theorem first?_of_lt {name : String} (h : ∀ o ∈ os, compare name o.tag = .lt) : os.first? name = none := by
  induction os with
  | nil => rfl
  | cons o os ih =>
    have hne : o.tag ≠ name := by
      intro he
      have := h o (by simp)
      rw [he, ReflOrd.compare_self] at this
      cases this
    rw [first?_cons, if_neg hne, ih fun p hp => h p (List.mem_cons_of_mem o hp)]

/-- Only the first occurrence of a tag sets where it is. -/
theorem Sorted.first?_record (h : os.Sorted) (name : String) :
    (os.record tag pos).first? name =
      if tag = name then (os.first? name).or (some pos) else os.first? name := by
  fun_induction Occurrences.record tag pos os with
  | case1 => by_cases hn : tag = name <;> simp [first?, find?, hn]
  | case2 p os hlt =>
    rw [first?_cons]
    split
    · next hn =>
      subst hn
      have hall : ∀ q ∈ p :: os, compare tag q.tag = .lt := by
        intro q hq
        rcases List.mem_cons.1 hq with rfl | hq
        · exact hlt
        · exact TransCmp.lt_trans hlt ((List.pairwise_cons.1 h).1 q hq)
      rw [first?_of_lt hall]
      rfl
    · rfl
  | case3 p os heq =>
    have htag : tag = p.tag := LawfulEqOrd.eq_of_compare heq
    rw [first?_cons, first?_cons, htag]
    split <;> rfl
  | case4 p os hgt ih =>
    have hne : tag ≠ p.tag := by
      intro he
      rw [he, ReflOrd.compare_self] at hgt
      cases hgt
    rw [first?_cons, first?_cons, ih (List.pairwise_cons.1 h).2]
    by_cases hp : p.tag = name
    · have hn : tag ≠ name := fun hn => hne (hn.trans hp.symm)
      simp [hp, hn]
    · simp [hp]

theorem contains_eq (os : Occurrences) (name : String) : os.contains name = (os.first? name).isSome := by
  simp [contains, first?]

/-- The tags of a block, one after another. -/
theorem first?_foldl (relevant : List String) (tags : List BlockTag) (h : os.Sorted) (name : String) :
    (tags.foldl (fun os t => if relevant.contains t.name then os.record t.name t.pos else os) os).first? name =
      (os.first? name).or
        (if relevant.contains name then (tags.find? fun t => t.name == name).map BlockTag.pos else none) := by
  induction tags generalizing os with
  | nil => simp
  | cons t tags ih =>
    rw [List.foldl_cons]
    by_cases hr : relevant.contains t.name = true
    · rw [if_pos hr, ih (h.record t.name t.pos), h.first?_record]
      by_cases hn : t.name = name
      · subst hn
        rw [if_pos rfl, if_pos hr, if_pos hr]
        cases os.first? t.name <;> simp
      · simp [hn]
    · rw [if_neg hr, ih h]
      by_cases hn : t.name = name
      · subst hn
        rw [if_neg hr, if_neg hr]
      · simp [hn]

/-- A relevant tag is where the first tag of that name stands. -/
theorem first?_ofBlock (relevant : List String) (b : Block) (name : String) :
    (ofBlock relevant b).first? name =
      if relevant.contains name then (b.tags.find? fun t => t.name == name).map BlockTag.pos else none := by
  rw [ofBlock, first?_foldl relevant b.tags List.Pairwise.nil name]
  rfl

end Occurrences

namespace RuleSet

open TagRule

/-- Present is `@class`, and after it one of the tags `@constructor` and `@static`. -/
theorem evaluate_classRule {os : Occurrences} {p q : Nat} (hclass : os.first? "@class" = some p) (hpq : p ≤ q)
    (hkind : os.first? "@constructor" = some q ∧ os.first? "@static" = none ∨
      os.first? "@constructor" = none ∧ os.first? "@static" = some q) : classRule.evaluate os = [] := by
  have hq : ¬ q < p := by omega
  rcases hkind with ⟨hc, hs⟩ | ⟨hc, hs⟩
  · simp [evaluate, missing, classRule, checkGroup, checkAnchor, presentRivals, Occurrences.contains_eq, hclass, hc,
      hs, hq]
  · simp [evaluate, missing, classRule, checkGroup, checkAnchor, presentRivals, Occurrences.contains_eq, hclass, hc,
      hs, hq]

theorem evaluate_functionRule {os : Occurrences} (hmethod : os.contains "@method" = true)
    (hreturn : os.contains "@return" = true) : functionRule.evaluate os = [] := by
  simp [evaluate, missing, functionRule, checkAnchor, hmethod, hreturn]

/-- A class header with `@class` before the only tag of its kind. -/
theorem checkBlock_classRule {b : Block} {before after : List BlockTag} {kind : BlockTag}
    (hrising : b.tags.Pairwise fun t u => t.pos < u.pos) (htags : b.tags = before ++ kind :: after)
    (hkind : kind.name = "@constructor" ∨ kind.name = "@static")
    (hothers : ∀ t ∈ before ++ after, t.name ≠ "@constructor" ∧ t.name ≠ "@static")
    (hclass : ∃ t ∈ before, t.name = "@class") : classRule.checkBlock b = [] := by
  have hbefore : ∀ t ∈ before, t.name ≠ "@constructor" ∧ t.name ≠ "@static" :=
    fun t ht => hothers t (List.mem_append_left after ht)
  obtain ⟨u, hu⟩ : ∃ u, before.find? (fun t => t.name == "@class") = some u := by
    obtain ⟨t, ht, hn⟩ := hclass
    exact Option.isSome_iff_exists.1 (List.find?_isSome.2 ⟨t, ht, by simp [hn]⟩)
  have hpos : u.pos ≤ kind.pos := by
    rw [htags] at hrising
    exact Nat.le_of_lt ((List.pairwise_append.1 hrising).2.2 u (List.mem_of_find?_eq_some hu) kind (by simp))
  have found : ∀ {name : String}, kind.name = name → (∀ t ∈ before, t.name ≠ name) →
      b.tags.find? (fun t => t.name == name) = some kind := by
    intro name hn hb
    rw [htags, List.find?_append, List.find?_eq_none.2 fun t ht => by simpa using hb t ht]
    simp [hn]
  have absent : ∀ {name : String}, kind.name ≠ name → (∀ t ∈ before ++ after, t.name ≠ name) →
      b.tags.find? (fun t => t.name == name) = none := by
    intro name hn hall
    rw [htags]
    refine List.find?_eq_none.2 fun t ht => ?_
    rcases List.mem_append.1 ht with ht | ht
    · simpa using hall t (List.mem_append_left after ht)
    · rcases List.mem_cons.1 ht with rfl | ht
      · simpa using hn
      · simpa using hall t (List.mem_append_right before ht)
  have hfirst : b.tags.find? (fun t => t.name == "@class") = some u := by
    rw [htags, List.find?_append, hu]
    rfl
  refine evaluate_classRule (p := u.pos) (q := kind.pos) ?_ hpos ?_
  · rw [Occurrences.first?_ofBlock, hfirst]
    rfl
  · simp only [Occurrences.first?_ofBlock]
    rcases hkind with hk | hk
    · rw [found hk fun t ht => (hbefore t ht).1,
        absent (by rw [hk]; decide) fun t ht => (hothers t ht).2]
      exact .inl ⟨rfl, rfl⟩
    · rw [found hk fun t ht => (hbefore t ht).2,
        absent (by rw [hk]; decide) fun t ht => (hothers t ht).1]
      exact .inr ⟨rfl, rfl⟩

theorem checkBlock_functionRule {b : Block} (hmethod : b.hasTag "@method" = true)
    (hreturn : b.hasTag "@return" = true) : functionRule.checkBlock b = [] := by
  have present : ∀ {name : String}, functionRule.relevant.contains name = true → b.hasTag name = true →
      (Occurrences.ofBlock functionRule.relevant b).contains name = true := by
    intro name hr hb
    rw [Occurrences.contains_eq, Occurrences.first?_ofBlock, if_pos hr, Option.isSome_map, List.find?_isSome]
    exact List.any_eq_true.1 hb
  exact evaluate_functionRule (present (by decide) hmethod) (present (by decide) hreturn)

end RuleSet
end DocLint
