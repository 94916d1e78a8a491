import Mathlib.Data.List.Nodup
import DocLint.Proofs.Contents

/-!
# Tag rules, read off the names

A tag rule looks up its tags among those it collected, and compares the positions it finds.  What it says of a block is
what one reads off the names of the block's tags, in their order: `TagRule.reading`.  This rests on how rules are built,
since every tag that a rule names is relevant and no group names a tag twice, and on how blocks are extracted, since the
tags of a block stand in the order of their positions.
-/
namespace DocLint

open TagRule (distinct)

/-! ## First occurrences -/

section FirstOccurrences

variable {α : Type} [DecidableEq α] {a b : α} {xs : List α}

theorem distinct_concat (xs : List α) (x : α) :
    distinct (xs ++ [x]) = if x ∈ distinct xs then distinct xs else distinct xs ++ [x] := by
  rw [distinct, List.foldl_append]
  rfl

theorem mem_distinct : a ∈ distinct xs ↔ a ∈ xs := by
  induction xs using List.reverseRecOn with
  | nil => rfl
  | append_singleton xs x ih =>
    rw [distinct_concat, List.mem_append, List.mem_singleton, ← ih]
    split
    · next hx =>
      constructor
      · exact .inl
      · rintro (ha | rfl)
        · exact ha
        · exact hx
    · rw [List.mem_append, List.mem_singleton]

theorem nodup_distinct (xs : List α) : (distinct xs).Nodup := by
  induction xs using List.reverseRecOn with
  | nil => exact List.nodup_nil
  | append_singleton xs x ih =>
    rw [distinct_concat]
    split
    · exact ih
    · next hx => exact (List.perm_append_singleton x _).nodup_iff.2 (List.nodup_cons.2 ⟨hx, ih⟩)

theorem distinct_map {β : Type} [DecidableEq β] {f : α → β} (hf : Function.Injective f) (xs : List α) :
    distinct (xs.map f) = (distinct xs).map f := by
  induction xs using List.reverseRecOn with
  | nil => rfl
  | append_singleton xs x ih =>
    rw [List.map_append, List.map_singleton, distinct_concat, distinct_concat, ih]
    by_cases hx : x ∈ distinct xs
    · rw [if_pos hx, if_pos (List.mem_map_of_mem hx)]
    · have hfx : f x ∉ (distinct xs).map f := fun h => hx ((List.mem_map_of_injective hf).1 h)
      rw [if_neg hx, if_neg hfx, List.map_append, List.map_singleton]

/-- A member at the end comes before those that are absent. -/
theorem idxOf_concat_lt_iff (a b x : α) (xs : List α) :
    (xs ++ [x]).idxOf a < (xs ++ [x]).idxOf b ↔
      xs.idxOf a < xs.idxOf b ∨ (a ∉ xs ∧ b ∉ xs ∧ a = x ∧ b ≠ x) := by
  have hpresent : ∀ c ∈ xs, xs.idxOf c < xs.length := fun c hc => List.idxOf_lt_length_iff.2 hc
  have habsent : ∀ c ∉ xs, xs.idxOf c = xs.length := fun c hc => List.idxOf_eq_length hc
  have hconcat : ∀ c, (xs ++ [x]).idxOf c =
      if c ∈ xs then xs.idxOf c else if c = x then xs.length else xs.length + 1 := by
    intro c
    rw [List.idxOf_append]
    by_cases hc : c = x
    · simp [hc]
    · simp [hc, Nat.add_comm]
  rw [hconcat, hconcat]
  grind

/-- Repetitions do not change which of two members comes first. -/
theorem idxOf_distinct_lt_iff (a b : α) (xs : List α) :
    (distinct xs).idxOf a < (distinct xs).idxOf b ↔ xs.idxOf a < xs.idxOf b := by
  induction xs using List.reverseRecOn with
  | nil => rfl
  | append_singleton xs x ih =>
    rw [distinct_concat, idxOf_concat_lt_iff, ← ih]
    split
    · next hx =>
      rw [mem_distinct] at hx
      constructor
      · exact .inl
      · rintro (h | ⟨ha, -, rfl, -⟩)
        · exact h
        · exact absurd hx ha
    · rw [idxOf_concat_lt_iff, mem_distinct, mem_distinct]

/-- Members that are left out do not change which of two others comes first. -/
theorem idxOf_filter_lt_iff {p : α → Bool} (ha : p a = true) (hb : p b = true) (xs : List α) :
    (xs.filter p).idxOf a < (xs.filter p).idxOf b ↔ xs.idxOf a < xs.idxOf b := by
  induction xs with
  | nil => rfl
  | cons x xs ih =>
    by_cases hx : p x = true
    · rw [List.filter_cons_of_pos hx]
      by_cases hxa : a = x
      · by_cases hxb : b = x
        · simp [hxa, hxb]
        · simp [hxa, List.idxOf_cons_ne _ (Ne.symm hxb)]
      · by_cases hxb : b = x
        · simp [hxb]
        · simp [List.idxOf_cons_ne _ (Ne.symm hxa), List.idxOf_cons_ne _ (Ne.symm hxb), ih]
    · have hxa : x ≠ a := fun h => hx (h ▸ ha)
      have hxb : x ≠ b := fun h => hx (h ▸ hb)
      rw [List.filter_cons_of_neg hx, ih]
      simp [hxa, hxb]

end FirstOccurrences

/-! ## What a rule is built from -/

theorem bind_eq_ok {ε α β : Type} {x : Except ε α} {f : α → Except ε β} {b : β} (h : (x >>= f) = .ok b) :
    ∃ a, x = .ok a ∧ f a = .ok b := by
  cases x with
  | error e => cases h
  | ok a => exact ⟨a, rfl, h⟩

theorem TagName.text_injective : Function.Injective TagName.text := by
  rintro ⟨s, hs⟩ ⟨t, ht⟩ rfl
  rfl

namespace TagRule

variable {relevant : List String} {role : TagRole}

theorem text_of_checkName {name : String} {t : TagName} (h : checkName name = .ok t) :
    t.text = name ∧ isTagName name.toList = true := by
  unfold checkName TagName.ofText? at h
  split at h
  · next tag htag =>
    split at htag
    · next hvalid =>
      cases h
      cases htag
      exact ⟨rfl, hvalid⟩
    · cases htag
  · cases h

theorem text_of_checkRole {name : String} {t : TagName} (h : checkRole relevant role name = .ok t) :
    t.text = name ∧ name ∈ relevant := by
  obtain ⟨tag, htag, h⟩ := bind_eq_ok h
  split at h
  · next hmem =>
    cases h
    exact ⟨(text_of_checkName htag).1, List.contains_iff_mem.1 hmem⟩
  · cases h

/-- Names that are checked one by one are kept as they are, and each of them passed. -/
theorem map_text_of_mapM {check : String → Except TagRuleError TagName} {p : String → Prop}
    (hcheck : ∀ {name t}, check name = .ok t → t.text = name ∧ p name) {names : List String} {tags : List TagName}
    (h : names.mapM check = .ok tags) : tags.map TagName.text = names ∧ ∀ name ∈ names, p name := by
  induction names generalizing tags with
  | nil =>
    rw [List.mapM_nil] at h
    cases h
    exact ⟨rfl, List.forall_mem_nil p⟩
  | cons name names ih =>
    rw [List.mapM_cons] at h
    obtain ⟨t, ht, h⟩ := bind_eq_ok h
    obtain ⟨ts, hts, h⟩ := bind_eq_ok h
    cases h
    obtain ⟨htext, hp⟩ := hcheck ht
    obtain ⟨htexts, hps⟩ := ih hts
    exact ⟨by rw [List.map_cons, htext, htexts], List.forall_mem_cons.2 ⟨hp, hps⟩⟩

theorem map_text_of_checkGroups {index : Nat} {groups : List (List String)} {tags : List (List TagName)}
    (h : checkGroups relevant index groups = .ok tags) :
    tags.map (List.map TagName.text) = groups.map distinct ∧ ∀ group ∈ groups, ∀ name ∈ group, name ∈ relevant := by
  induction groups generalizing index tags with
  | nil =>
    cases h
    exact ⟨rfl, by simp⟩
  | cons group groups ih =>
    obtain ⟨members, hmembers, h⟩ := bind_eq_ok h
    split at h
    · cases h
    · obtain ⟨rest, hrest, h⟩ := bind_eq_ok h
      cases h
      obtain ⟨htext, hmem⟩ := map_text_of_mapM text_of_checkRole hmembers
      obtain ⟨htexts, hmems⟩ := ih hrest
      exact ⟨by rw [List.map_cons, List.map_cons, htexts, ← distinct_map TagName.text_injective, htext],
        List.forall_mem_cons.2 ⟨hmem, hmems⟩⟩

theorem map_text_of_option {name : Option String} {tag : Option TagName}
    (h : name.mapM (checkRole relevant role) = .ok tag) :
    tag.map TagName.text = name ∧ ∀ t ∈ tag.toList, t.text ∈ relevant := by
  cases name with
  | none =>
    cases h
    exact ⟨rfl, List.forall_mem_nil _⟩
  | some name =>
    rw [Option.mapM_some] at h
    obtain ⟨t, ht, h⟩ := bind_eq_ok h
    cases h
    obtain ⟨rfl, hmem⟩ := text_of_checkRole ht
    exact ⟨rfl, List.forall_mem_singleton.2 hmem⟩

theorem mem_insertName {m n : String} {ns : List String} : m ∈ insertName n ns ↔ m = n ∨ m ∈ ns := by
  fun_induction insertName n ns with
  | case1 => simp
  | case2 => simp
  | case3 p ns heq =>
    rw [Std.LawfulEqOrd.eq_of_compare heq]
    simp
  | case4 p ns hgt ih =>
    rw [List.mem_cons, List.mem_cons, ih]
    tauto

theorem mem_foldl_insertName {m : String} {tags : List TagName} {ns : List String} :
    m ∈ tags.foldl (fun ns n => insertName n.text ns) ns ↔ m ∈ ns ∨ m ∈ tags.map TagName.text := by
  induction tags generalizing ns with
  | nil => simp
  | cons t tags ih =>
    rw [List.foldl_cons, ih, mem_insertName, List.map_cons, List.mem_cons]
    tauto

/-- The tags that a rule names, in any role. -/
def named (r : TagRule) : List TagName := r.required ++ r.rivaling.flatten ++ r.anchor.toList

section Named

variable {r : TagRule} {t : TagName}

theorem mem_named_of_required (h : t ∈ r.required) : t ∈ r.named := by simp [named, h]

theorem mem_named_of_rivaling (h : t ∈ r.rivaling.flatten) : t ∈ r.named :=
  List.mem_append_left _ (List.mem_append_right _ h)

theorem mem_named_of_anchor (h : r.anchor = some t) : t ∈ r.named := by simp [named, h]

end Named

/-- A rule holds the tags of its options as they are declared, each tag once in its role, and all of them are
relevant. -/
structure BuiltFrom (r : TagRule) (o : TagOptions) : Prop where
  required : r.required.map TagName.text = distinct o.required
  rivaling : r.rivaling.map (List.map TagName.text) = o.rivaling.map distinct
  anchor : r.anchor.map TagName.text = o.anchor
  mandatory : r.rivalingMandatory = o.rivalingMandatory
  vocabulary : ∀ name, name ∈ r.relevant ↔ name ∈ o.relevant
  relevant : ∀ t ∈ r.named, t.text ∈ r.relevant

theorem builtFrom_of_build {o : TagOptions} {r : TagRule} (h : build o = .ok r) : r.BuiltFrom o := by
  obtain ⟨names, hnames, h⟩ := bind_eq_ok h
  obtain ⟨required, hrequired, h⟩ := bind_eq_ok h
  obtain ⟨rivaling, hrivaling, h⟩ := bind_eq_ok h
  obtain ⟨anchor, hanchor, h⟩ := bind_eq_ok h
  cases h
  obtain ⟨hnames, -⟩ := map_text_of_mapM text_of_checkName hnames
  obtain ⟨hrequired, hrelevant⟩ := map_text_of_mapM text_of_checkRole hrequired
  obtain ⟨hrivaling, hrivals⟩ := map_text_of_checkGroups hrivaling
  obtain ⟨hanchor, hanchored⟩ := map_text_of_option hanchor
  refine ⟨?_, hrivaling, hanchor, rfl, fun name => ?_, fun t ht => ?_⟩
  · rw [← distinct_map TagName.text_injective, hrequired]
  · rw [mem_foldl_insertName, hnames]
    simp
  · rcases List.mem_append.1 ht with ht | ht
    · rcases List.mem_append.1 ht with ht | ht
      · refine hrelevant _ ?_
        rw [← hrequired]
        exact List.mem_map_of_mem (mem_distinct.1 ht)
      · obtain ⟨group, hg, ht⟩ := List.mem_flatten.1 ht
        have hmem : group.map TagName.text ∈ o.rivaling.map distinct := hrivaling ▸ List.mem_map_of_mem hg
        obtain ⟨texts, htexts, heq⟩ := List.mem_map.1 hmem
        refine hrivals texts htexts _ (mem_distinct.1 ?_)
        rw [heq]
        exact List.mem_map_of_mem ht
    · exact hanchored t ht

theorem BuiltFrom.nodup {o : TagOptions} {r : TagRule} (h : r.BuiltFrom o) {group : List TagName}
    (hg : group ∈ r.rivaling) : group.Nodup := by
  have hmem : group.map TagName.text ∈ o.rivaling.map distinct := by
    rw [← h.rivaling]
    exact List.mem_map_of_mem hg
  obtain ⟨names, -, hnames⟩ := List.mem_map.1 hmem
  exact List.Nodup.of_map TagName.text (hnames ▸ nodup_distinct names)

/-! ## The direct reading -/

variable (r : TagRule) (names : List String)

/-- A group of which two members occur, or, if one is mandatory, none. -/
def readGroup (group : List TagName) : List Finding :=
  if ∃ t ∈ group, ∃ u ∈ group, t ≠ u ∧ t.text ∈ names ∧ u.text ∈ names then [.rivalConflict group]
  else if r.rivalingMandatory = true ∧ ∀ t ∈ group, t.text ∉ names then [.rivalMissing group]
  else []

/-- The anchor, if it occurs and a rival occurs before it. -/
def readAnchor : List Finding :=
  match r.anchor with
  | none => []
  | some anchor =>
    if anchor.text ∈ names ∧ ∃ t ∈ r.rivaling.flatten, t ≠ anchor ∧ names.idxOf t.text < names.idxOf anchor.text then
      [.anchorOrder anchor (r.rivaling.flatten.filter fun t => t ≠ anchor ∧ t.text ∈ names)]
    else []

/-- What a rule says of a block whose tags have these names, in this order. -/
def reading : List Finding :=
  (r.required.filter fun t => t.text ∉ names).map .missingTag ++ r.rivaling.flatMap (r.readGroup names) ++
    r.readAnchor names

variable {r names}

theorem exists_find?_iff {tags : List BlockTag} {name : String} :
    (∃ t, tags.find? (fun t => t.name == name) = some t) ↔ name ∈ tags.map BlockTag.name := by
  rw [← Option.isSome_iff_exists, Occurrences.find?_isSome_eq, List.any_beq', List.contains_iff_mem]

/-- Of the relevant tags, those are present that occur. -/
theorem contains_ofBlock {b : Block} {relevant : List String} {name : String} (h : name ∈ relevant) :
    (Occurrences.ofBlock relevant b).contains name = decide (name ∈ b.tags.map BlockTag.name) := by
  rw [Occurrences.contains_eq, Occurrences.first?_ofBlock, if_pos (List.contains_iff_mem.2 h), Option.isSome_map,
    Bool.eq_iff_iff, Option.isSome_iff_exists, exists_find?_iff, decide_eq_true_iff]

/-- Of a list without repetitions, two members are two of its places. -/
theorem two_le_length_iff {α : Type} {xs : List α} (h : xs.Nodup) :
    2 ≤ xs.length ↔ ∃ x ∈ xs, ∃ y ∈ xs, x ≠ y := by
  match xs with
  | [] => simp
  | [x] => simp
  | x :: y :: zs =>
    have hne : x ≠ y := fun he => (List.nodup_cons.1 h).1 (by simp [he])
    exact ⟨fun _ => ⟨x, by simp, y, by simp, hne⟩, fun _ => by simp⟩

section Present

variable {os : Occurrences} (hpresent : ∀ t ∈ r.named, os.contains t.text = decide (t.text ∈ names))
include hpresent

theorem missing_eq : r.missing os = (r.required.filter fun t => t.text ∉ names).map .missingTag := by
  unfold missing
  congr 1
  refine List.filter_congr fun t ht => ?_
  rw [hpresent t (mem_named_of_required ht)]
  simp

theorem checkGroup_eq {group : List TagName} (hg : group ∈ r.rivaling) (hnodup : group.Nodup) :
    r.checkGroup os group = r.readGroup names group := by
  have hmembers : group.filter (fun t => os.contains t.text) = group.filter fun t => t.text ∈ names := by
    refine List.filter_congr fun t ht => hpresent t ?_
    exact mem_named_of_rivaling (List.mem_flatten.2 ⟨group, hg, ht⟩)
  -- No tag is named twice in a group, so that two entries which are present are two tags.
  have htwo : 2 ≤ (group.filter fun t => t.text ∈ names).length ↔
      ∃ t ∈ group, ∃ u ∈ group, t ≠ u ∧ t.text ∈ names ∧ u.text ∈ names := by
    rw [two_le_length_iff (hnodup.filter _)]
    simp only [List.mem_filter, decide_eq_true_eq]
    constructor
    · rintro ⟨t, ⟨ht, hto⟩, u, ⟨hu, huo⟩, hne⟩
      exact ⟨t, ht, u, hu, hne, hto, huo⟩
    · rintro ⟨t, ht, u, hu, hne, hto, huo⟩
      exact ⟨t, ⟨ht, hto⟩, u, ⟨hu, huo⟩, hne⟩
  have hnone : (group.filter fun t => t.text ∈ names).length = 0 ↔ ∀ t ∈ group, t.text ∉ names := by
    simp
  rw [checkGroup, readGroup, hmembers]
  generalize (group.filter fun t => t.text ∈ names).length = present at htwo hnone ⊢
  simp only [← htwo, ← hnone]
  rcases present with - | - | present
  · simp
  · simp
  · simp

theorem presentRivals_eq (anchor : TagName) :
    r.presentRivals os anchor = r.rivaling.flatten.filter fun t => t ≠ anchor ∧ t.text ∈ names := by
  refine List.filter_congr fun t ht => ?_
  rw [hpresent t (mem_named_of_rivaling ht)]
  by_cases h : t = anchor <;> simp [h]

end Present

/-- The first tag of a name stands where the name is first. -/
theorem getElem?_idxOf_of_find? {tags : List BlockTag} {name : String} {t : BlockTag}
    (h : tags.find? (fun t => t.name == name) = some t) : tags[(tags.map BlockTag.name).idxOf name]? = some t := by
  induction tags with
  | nil => cases h
  | cons u tags ih =>
    rw [List.find?_cons] at h
    rw [List.map_cons]
    by_cases hu : u.name = name
    · simpa [hu] using h
    · rw [List.idxOf_cons_ne _ hu, List.getElem?_cons_succ]
      simp only [beq_eq_false_iff_ne.2 hu] at h
      exact ih h

/-- In a block whose tags are in order, positions compare as places in the sequence of names. -/
theorem pos_lt_iff_idxOf {tags : List BlockTag} (hrising : tags.Pairwise fun t u => t.pos < u.pos) {m n : String}
    {t u : BlockTag} (ht : tags.find? (fun t => t.name == m) = some t)
    (hu : tags.find? (fun t => t.name == n) = some u) :
    t.pos < u.pos ↔ (tags.map BlockTag.name).idxOf m < (tags.map BlockTag.name).idxOf n := by
  obtain ⟨hi, rfl⟩ := List.getElem?_eq_some_iff.1 (getElem?_idxOf_of_find? ht)
  obtain ⟨hj, rfl⟩ := List.getElem?_eq_some_iff.1 (getElem?_idxOf_of_find? hu)
  have hmono := List.pairwise_iff_getElem.1 hrising
  constructor
  · intro hlt
    by_contra hge
    rcases Nat.lt_or_eq_of_le (Nat.le_of_not_lt hge) with hback | heq
    · exact absurd (hmono _ _ hj hi hback) (Nat.lt_asymm hlt)
    · simp [heq] at hlt
  · exact hmono _ _ hi hj

section Extracted

variable {b : Block} (hrising : b.tags.Pairwise fun t u => t.pos < u.pos)
  (hrelevant : ∀ t ∈ r.named, t.text ∈ r.relevant)
include hrising hrelevant

/-- A rival stands before the anchor if its name does. -/
theorem rivalBefore_iff {anchor : TagName} {a : BlockTag}
    (ha : b.tags.find? (fun u => u.name == anchor.text) = some a) :
    rivalBefore (.ofBlock r.relevant b)
        (r.rivaling.flatten.filter fun t => t ≠ anchor ∧ t.text ∈ b.tags.map BlockTag.name) a.pos = true ↔
      ∃ t ∈ r.rivaling.flatten, t ≠ anchor ∧
        (b.tags.map BlockTag.name).idxOf t.text < (b.tags.map BlockTag.name).idxOf anchor.text := by
  have hfirst : ∀ t ∈ r.rivaling.flatten, (Occurrences.ofBlock r.relevant b).first? t.text =
      (b.tags.find? fun u => u.name == t.text).map BlockTag.pos := by
    intro t ht
    rw [Occurrences.first?_ofBlock, if_pos (List.contains_iff_mem.2 (hrelevant t (mem_named_of_rivaling ht)))]
  simp only [rivalBefore, List.any_eq_true, List.mem_filter, decide_eq_true_eq, Option.any_eq_true]
  constructor
  · rintro ⟨t, ⟨ht, hne, hmem⟩, p, hp, hlt⟩
    rw [hfirst t ht] at hp
    obtain ⟨u, hu, rfl⟩ := Option.map_eq_some_iff.1 hp
    exact ⟨t, ht, hne, (pos_lt_iff_idxOf hrising hu ha).1 hlt⟩
  · rintro ⟨t, ht, hne, hlt⟩
    have hmem : t.text ∈ b.tags.map BlockTag.name :=
      List.idxOf_lt_length_iff.1 (Nat.lt_of_lt_of_le hlt List.idxOf_le_length)
    obtain ⟨u, hu⟩ := exists_find?_iff.2 hmem
    exact ⟨t, ⟨ht, hne, hmem⟩, u.pos, by rw [hfirst t ht, hu]; rfl, (pos_lt_iff_idxOf hrising hu ha).2 hlt⟩

theorem checkAnchor_ofBlock : r.checkAnchor (.ofBlock r.relevant b) = r.readAnchor (b.tags.map BlockTag.name) := by
  cases ha : r.anchor with
  | none => simp only [checkAnchor, readAnchor, ha]
  | some anchor =>
    have hanchor : r.relevant.contains anchor.text = true :=
      List.contains_iff_mem.2 (hrelevant anchor (mem_named_of_anchor ha))
    rw [checkAnchor_eq r _ ha, presentRivals_eq fun t ht => contains_ofBlock (hrelevant t ht),
      Occurrences.first?_ofBlock, if_pos hanchor]
    simp only [readAnchor, ha]
    cases hfind : b.tags.find? fun u => u.name == anchor.text with
    | none =>
      have habsent : anchor.text ∉ b.tags.map BlockTag.name := by
        rw [← exists_find?_iff, hfind]
        simp
      simp only [Option.map_none, habsent, false_and, if_false]
    | some a =>
      have hmem : anchor.text ∈ b.tags.map BlockTag.name := exists_find?_iff.1 ⟨a, hfind⟩
      simp only [Option.map_some, rivalBefore_iff hrising hrelevant hfind, hmem, true_and]

theorem checkBlock_eq (hnodup : ∀ group ∈ r.rivaling, group.Nodup) :
    r.checkBlock b = r.reading (b.tags.map BlockTag.name) := by
  have hpresent : ∀ t ∈ r.named, (Occurrences.ofBlock r.relevant b).contains t.text =
      decide (t.text ∈ b.tags.map BlockTag.name) := fun t ht => contains_ofBlock (hrelevant t ht)
  rw [checkBlock, evaluate, reading, missing_eq hpresent, checkAnchor_ofBlock hrising hrelevant,
    List.flatMap_congr fun group hg => checkGroup_eq hpresent hg (hnodup group hg)]

end Extracted

/-! ## What does not matter -/

section Congruence

variable {names' : List String} (hmem : ∀ t ∈ r.named, (t.text ∈ names ↔ t.text ∈ names'))
include hmem

theorem readGroup_congr {group : List TagName} (hg : group ∈ r.rivaling) :
    r.readGroup names group = r.readGroup names' group := by
  have hin : ∀ t ∈ group, (t.text ∈ names ↔ t.text ∈ names') := by
    intro t ht
    exact hmem t (mem_named_of_rivaling (List.mem_flatten.2 ⟨group, hg, ht⟩))
  have hrivals : (∃ t ∈ group, ∃ u ∈ group, t ≠ u ∧ t.text ∈ names ∧ u.text ∈ names) ↔
      ∃ t ∈ group, ∃ u ∈ group, t ≠ u ∧ t.text ∈ names' ∧ u.text ∈ names' := by
    refine exists_congr fun t => and_congr_right fun ht => exists_congr fun u => and_congr_right fun hu => ?_
    rw [hin t ht, hin u hu]
  have hnone : (∀ t ∈ group, t.text ∉ names) ↔ ∀ t ∈ group, t.text ∉ names' :=
    forall₂_congr fun t ht => not_congr (hin t ht)
  simp only [readGroup, hrivals, hnone]

theorem readAnchor_congr (hidx : ∀ t ∈ r.named, ∀ u ∈ r.named,
      (names.idxOf t.text < names.idxOf u.text ↔ names'.idxOf t.text < names'.idxOf u.text)) :
    r.readAnchor names = r.readAnchor names' := by
  cases ha : r.anchor with
  | none => simp only [readAnchor, ha]
  | some anchor =>
    have hanchor : anchor ∈ r.named := mem_named_of_anchor ha
    have hbefore : (∃ t ∈ r.rivaling.flatten, t ≠ anchor ∧ names.idxOf t.text < names.idxOf anchor.text) ↔
        ∃ t ∈ r.rivaling.flatten, t ≠ anchor ∧ names'.idxOf t.text < names'.idxOf anchor.text := by
      refine exists_congr fun t => and_congr_right fun ht => ?_
      rw [hidx t (mem_named_of_rivaling ht) anchor hanchor]
    have hrivals : (r.rivaling.flatten.filter fun t => t ≠ anchor ∧ t.text ∈ names) =
        r.rivaling.flatten.filter fun t => t ≠ anchor ∧ t.text ∈ names' := by
      refine List.filter_congr fun t ht => ?_
      simp only [hmem t (mem_named_of_rivaling ht)]
    simp only [readAnchor, ha, hmem anchor hanchor, hbefore, hrivals]

/-- The reading looks only at which of the named tags occur, and in which order they do so first. -/
theorem reading_congr (hidx : ∀ t ∈ r.named, ∀ u ∈ r.named,
      (names.idxOf t.text < names.idxOf u.text ↔ names'.idxOf t.text < names'.idxOf u.text)) :
    r.reading names = r.reading names' := by
  have hmissing : (r.required.filter fun t => t.text ∉ names) = r.required.filter fun t => t.text ∉ names' := by
    refine List.filter_congr fun t ht => ?_
    simp only [hmem t (mem_named_of_required ht)]
  rw [reading, reading, hmissing, readAnchor_congr hmem hidx,
    List.flatMap_congr fun group hg => readGroup_congr hmem hg]

end Congruence

/-- The relevant ones of some names, each where it occurs first. -/
def firsts (relevant names : List String) : List String := distinct (names.filter (· ∈ relevant))

theorem reading_firsts (hrelevant : ∀ t ∈ r.named, t.text ∈ r.relevant) (names : List String) :
    r.reading (firsts r.relevant names) = r.reading names := by
  refine reading_congr (fun t ht => ?_) fun t ht u hu => ?_
  · rw [firsts, mem_distinct, List.mem_filter, decide_eq_true_iff]
    exact ⟨And.left, fun h => ⟨h, hrelevant t ht⟩⟩
  · rw [firsts, idxOf_distinct_lt_iff]
    exact idxOf_filter_lt_iff (by simpa using hrelevant t ht) (by simpa using hrelevant u hu) names

end TagRule

/-- What a rule finds in a block is read off the names of the block's tags.  Every tag that the rule names is relevant,
so that the others do not matter, and neither do repetitions. -/
theorem checkBlock_eq_reading {o : TagOptions} {r : TagRule} (hr : TagRule.build o = .ok r) {s : Stream} {opener : Nat}
    {b : Block} (hb : Block.extract s opener = .ok b) :
    r.BuiltFrom o ∧ r.checkBlock b = r.reading (b.tags.map BlockTag.name) ∧
      r.checkBlock b = r.reading (TagRule.firsts r.relevant (b.tags.map BlockTag.name)) := by
  have hbuilt := TagRule.builtFrom_of_build hr
  obtain ⟨next, hordered⟩ := Block.exists_ordered_of_extract hb
  have hcheck := TagRule.checkBlock_eq hordered.tagsRising hbuilt.relevant fun _ hg => hbuilt.nodup hg
  exact ⟨hbuilt, hcheck, hcheck.trans (TagRule.reading_firsts hbuilt.relevant _).symm⟩

/-- Groups that share a tag, an anchor that is a rival itself, a tag that is not relevant and one that is repeated. -/
theorem checkBlock_eq_reading_of_overlap :
    ∃ r b, TagRule.build ⟨["@x", "@a", "@x"], [["@a", "@b"], ["@b", "@c", "@b"], ["@d"]],
        ["@x", "@d", "@c", "@b", "@a"], true, some "@c"⟩ = .ok r ∧
      Block.extract (.ofSource "/** @b u\n * @y\n * @c\n * @b */".toList) 0 = .ok b ∧
      b.tags.map BlockTag.name = ["@b", "@y", "@c", "@b"] ∧
      TagRule.firsts r.relevant ["@b", "@y", "@c", "@b"] = ["@b", "@c"] ∧
      (r.checkBlock b).map TagRule.Finding.args = [["@x"], ["@a"], ["@b, @c"], ["@d"], ["@c", "@b, @b"]] := by
  have hr : TagRule.build ⟨["@x", "@a", "@x"], [["@a", "@b"], ["@b", "@c", "@b"], ["@d"]],
      ["@x", "@d", "@c", "@b", "@a"], true, some "@c"⟩ = .ok
        { required := [⟨"@x", by decide⟩, ⟨"@a", by decide⟩]
          rivaling := [[⟨"@a", by decide⟩, ⟨"@b", by decide⟩], [⟨"@b", by decide⟩, ⟨"@c", by decide⟩],
            [⟨"@d", by decide⟩]]
          relevant := ["@a", "@b", "@c", "@d", "@x"]
          rivalingMandatory := true
          anchor := some ⟨"@c", by decide⟩ } := by decide +kernel
  have hb : Block.extract (.ofSource "/** @b u\n * @y\n * @c\n * @b */".toList) 0 = .ok
      ⟨0, 21, [7, 12, 17], [], [⟨2, "@b", "u"⟩, ⟨9, "@y", ""⟩, ⟨14, "@c", ""⟩, ⟨19, "@b", ""⟩]⟩ := by decide +kernel
  refine ⟨_, _, hr, hb, rfl, by decide +kernel, ?_⟩
  rw [(checkBlock_eq_reading hr hb).2.2]
  decide +kernel

end DocLint
