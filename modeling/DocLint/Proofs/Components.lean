import Mathlib.Data.List.Nodup
import DocLint.Proofs.Places

/-!
# Components of paths

A path is a text, but most of what is done with it is said by its components.  A path behind another one adds its
components, stripping a path takes components away at the front, and going to the parent takes away the last one.
Whatever the spelling, only the empty path has no components.
-/
namespace DocLint.Path

open DocLint.Text

variable {p q base rest : Path} {name : List Char} {segments : List (List Char)}

/-! ## Segments -/

/-- The components that are named by some segments. -/
def named (segments : List (List Char)) : List Component := segments.filterMap component?

theorem component?_eq_none_iff {s : List Char} : component? s = none ↔ isNoise s = true := by
  rw [component?]
  split_ifs with hnoise hparent <;> simp [hnoise]

theorem component?_name (h : IsName name) : component? name = some (.normal name) := by
  rw [component?, if_neg (by simp [h.real]), if_neg h.notParent]

@[simp] theorem named_nil : named [] = [] := rfl

@[simp] theorem named_append (ss ts : List (List Char)) : named (ss ++ ts) = named ss ++ named ts :=
  List.filterMap_append

theorem named_noise {s : List Char} (h : isNoise s = true) (ss : List (List Char)) : named (s :: ss) = named ss :=
  List.filterMap_cons_none (component?_eq_none_iff.2 h)

theorem exists_named_real {s : List Char} (h : isNoise s = false) (ss : List (List Char)) :
    ∃ c, named (s :: ss) = c :: named ss := by
  cases hs : component? s with
  | none => simp [component?_eq_none_iff.1 hs] at h
  | some c => exact ⟨c, List.filterMap_cons_some hs⟩

/-- A component is spelled in one way only. -/
theorem eq_of_component? {s u : List Char} {c : Component} (hs : component? s = some c) (hu : component? u = some c) :
    s = u := by
  rw [component?] at hs hu
  split_ifs at hs hu with hnoise hparent hnoise' hparent'
  · rw [hparent, hparent']
  · cases hs
    cases hu
  · cases hs
    cases hu
  · cases hs
    cases hu
    rfl

theorem mem_named_iff {s : List Char} {c : Component} (h : component? s = some c) :
    c ∈ named segments ↔ s ∈ segments := by
  rw [named, List.mem_filterMap]
  constructor
  · rintro ⟨u, hu, hc⟩
    exact eq_of_component? hc h ▸ hu
  · intro hs
    exact ⟨s, hs, h⟩

/-- The segments of a path name neither the root nor the place where a path starts. -/
theorem ne_of_mem_named {c : Component} (h : c ∈ named segments) : c ≠ .root ∧ c ≠ .current := by
  obtain ⟨s, -, hs⟩ := List.mem_filterMap.1 h
  rw [component?] at hs
  split_ifs at hs <;> cases hs <;> simp

theorem named_dropWhile (segments : List (List Char)) : named (segments.dropWhile isNoise) = named segments := by
  induction segments with
  | nil => rfl
  | cons s ss ih =>
    cases hs : isNoise s with
    | true => rw [List.dropWhile_cons_of_pos hs, ih, named_noise hs]
    | false => rw [List.dropWhile_cons_of_neg (by simp [hs])]

theorem named_trimSegments (segments : List (List Char)) : named (trimSegments segments) = named segments := by
  have hreverse := named_dropWhile segments.reverse
  rw [named, named, List.filterMap_reverse] at hreverse
  rw [trimSegments, named, List.filterMap_reverse, hreverse, List.reverse_reverse, named]

theorem isPrefix_trimSegments (segments : List (List Char)) : trimSegments segments <+: segments := by
  have hsuffix := List.dropWhile_suffix isNoise (l := segments.reverse)
  simpa [trimSegments] using List.reverse_prefix.2 hsuffix

theorem eq_nil_or_last_real (segments : List (List Char)) :
    trimSegments segments = [] ∨ ∃ front last, trimSegments segments = front ++ [last] ∧ isNoise last = false := by
  rw [trimSegments]
  cases hback : segments.reverse.dropWhile isNoise with
  | nil => exact .inl rfl
  | cons s ss =>
    refine .inr ⟨ss.reverse, s, List.reverse_cons, ?_⟩
    have hhead := List.head?_dropWhile_not isNoise segments.reverse
    rw [hback] at hhead
    simpa using hhead

/-- After `n` components of some segments, the others are left. -/
theorem named_dropReal (n : Nat) (segments : List (List Char)) :
    named (dropReal n segments) = (named segments).drop n := by
  fun_induction dropReal n segments with
  | case1 segments => rfl
  | case2 n => simp
  | case3 n s ss hs ih => rw [ih, named_noise hs]
  | case4 n s ss hs ih =>
    obtain ⟨c, hc⟩ := exists_named_real (by simpa using hs) ss
    rw [ih, hc, List.drop_succ_cons]

theorem dropReal_suffix (n : Nat) (segments : List (List Char)) : dropReal n segments <:+ segments := by
  fun_induction dropReal n segments with
  | case1 segments => exact List.suffix_rfl
  | case2 n => exact List.suffix_rfl
  | case3 n s ss hs ih => exact ih.trans (List.suffix_cons s ss)
  | case4 n s ss hs ih => exact ih.trans (List.suffix_cons s ss)

/-! ## The beginning of a path -/

theorem anchored_cases (p : Path) :
    (∃ s ss, splitOn '/' p.chars = [] :: s :: ss ∧ p.anchored = (.root, s :: ss)) ∨
    (∃ ss, splitOn '/' p.chars = ['.'] :: ss ∧ p.anchored = (.current, ss)) ∨
    (splitOn '/' p.chars = [[]] ∧ p.anchored = (.nothing, [[]])) ∨
    (∃ s ss, splitOn '/' p.chars = s :: ss ∧ isNoise s = false ∧ p.anchored = (.nothing, s :: ss)) := by
  rw [anchored]
  split
  · next s ss hs => exact .inl ⟨s, ss, hs, rfl⟩
  · next ss hs => exact .inr (.inl ⟨ss, hs, rfl⟩)
  · next hroot hdot =>
    cases hsplit : splitOn '/' p.chars with
    | nil => exact absurd hsplit (splitOn_ne_nil '/' p.chars)
    | cons s ss =>
      by_cases hs : s = []
      · subst hs
        cases ss with
        | nil => exact .inr (.inr (.inl ⟨rfl, rfl⟩))
        | cons s ss => exact absurd hsplit (hroot s ss)
      · have hreal : isNoise s = false := by
          have hne : s ≠ ['.'] := fun heq => hdot ss (heq ▸ hsplit)
          simp [isNoise, hs, hne]
        exact .inr (.inr (.inr ⟨s, ss, rfl, hreal, rfl⟩))

theorem components_eq (p : Path) : p.components = p.anchored.1.components ++ named (splitOn '/' p.chars) := by
  have hempty : isNoise [] = true := rfl
  have hdot : isNoise ['.'] = true := rfl
  rw [components]
  rcases anchored_cases p with ⟨s, ss, hs, h⟩ | ⟨ss, hs, h⟩ | ⟨hs, h⟩ | ⟨s, ss, hs, -, h⟩
  · rw [h, hs, named_noise hempty]
    rfl
  · rw [h, hs, named_noise hdot]
    rfl
  · rw [h, hs]
    rfl
  · rw [h, hs]
    rfl

theorem anchored_slash (cs ds : List Char) : (anchored ⟨cs ++ '/' :: ds⟩).1 = (anchored ⟨cs ++ ['/']⟩).1 := by
  obtain ⟨s, ss, hs⟩ := List.exists_cons_of_ne_nil (splitOn_ne_nil '/' cs)
  obtain ⟨u, us, hu⟩ := List.exists_cons_of_ne_nil (splitOn_ne_nil '/' ds)
  simp only [anchored, splitOn_append_sep, hs, hu, splitOn]
  -- Only the first segment matters, and that there is another one.
  rcases s with - | ⟨c, s⟩
  · cases ss <;> rfl
  · by_cases hdot : c :: s = ['.']
    · obtain ⟨rfl, rfl⟩ := List.cons.inj hdot
      rfl
    · cases ss <;> simp_all

theorem anchored_trailing {cs : List Char} (hne : cs ≠ []) : (anchored ⟨cs ++ ['/']⟩).1 = (anchored ⟨cs⟩).1 := by
  have hsplit : splitOn '/' (cs ++ ['/']) = splitOn '/' cs ++ [[]] := splitOn_append_sep '/' cs []
  rw [anchored, hsplit]
  rcases anchored_cases ⟨cs⟩ with ⟨s, ss, hs, h⟩ | ⟨ss, hs, h⟩ | ⟨hs, h⟩ | ⟨s, ss, hs, hreal, h⟩
  · rw [h, hs]
    rfl
  · rw [h, hs]
    rfl
  · have hglued := joinWith_splitOn '/' cs
    rw [hs] at hglued
    exact absurd hglued.symm hne
  · rw [h, hs]
    rcases s with - | ⟨c, s⟩
    · simp [isNoise] at hreal
    · have hdot : c :: s ≠ ['.'] := by
        intro heq
        simp [heq, isNoise] at hreal
      cases ss <;> simp_all

/-- A path that starts with the root is absolute. -/
theorem isAbsolute_iff : p.isAbsolute = true ↔ p.anchored.1 = .root := by
  obtain ⟨cs⟩ := p
  cases cs with
  | nil => exact ⟨fun h => absurd h (by decide), fun h => absurd h (by decide)⟩
  | cons c cs =>
    by_cases hc : c = '/'
    · subst hc
      have hroot : (anchored ⟨[] ++ '/' :: cs⟩).1 = .root := anchored_slash [] cs
      exact ⟨fun _ => hroot, fun _ => rfl⟩
    · have hrelative : ¬ isAbsolute ⟨c :: cs⟩ = true := by simpa [isAbsolute] using hc
      refine ⟨fun h => absurd h hrelative, fun h => ?_⟩
      obtain ⟨s, ss, hs⟩ := List.exists_cons_of_ne_nil (splitOn_ne_nil '/' cs)
      rw [anchored, splitOn, if_neg hc, hs] at h
      split at h
      · next heq => cases heq
      · cases h
      · cases h

theorem root_mem_components_iff : Component.root ∈ p.components ↔ p.isAbsolute = true := by
  rw [isAbsolute_iff, components_eq, List.mem_append]
  constructor
  · rintro (hanchor | hnamed)
    · cases ha : p.anchored.1 <;> simp_all [Anchor.components]
    · exact absurd rfl (ne_of_mem_named hnamed).1
  · intro hanchor
    exact .inl (by simp [hanchor, Anchor.components])

theorem components_of_isAbsolute (h : p.isAbsolute = true) :
    p.components = .root :: named (splitOn '/' p.chars) := by
  rw [components_eq, isAbsolute_iff.1 h]
  rfl

/-- Only the empty path has no components. -/
theorem components_eq_nil_iff : p.components = [] ↔ p.chars = [] := by
  constructor
  · intro hnil
    rw [components_eq] at hnil
    obtain ⟨hanchor, hnamed⟩ := List.append_eq_nil_iff.1 hnil
    rcases anchored_cases p with ⟨s, ss, hs, h⟩ | ⟨ss, hs, h⟩ | ⟨hs, h⟩ | ⟨s, ss, hs, hreal, h⟩
    · simp [h, Anchor.components] at hanchor
    · simp [h, Anchor.components] at hanchor
    · rw [← joinWith_splitOn '/' p.chars, hs]
      rfl
    · obtain ⟨c, hc⟩ := exists_named_real hreal ss
      simp [hs, hc] at hnamed
  · intro hnil
    obtain rfl : p = ⟨[]⟩ := by rw [← hnil]
    rfl

/-! ## A path behind another one -/

theorem components_slash (cs ds : List Char) :
    components ⟨cs ++ '/' :: ds⟩ = components ⟨cs ++ ['/']⟩ ++ named (splitOn '/' ds) := by
  have hlast : named (splitOn '/' (cs ++ ['/'])) = named (splitOn '/' cs) := by
    rw [splitOn_append_sep, named_append]
    exact List.append_nil _
  rw [components_eq, components_eq, anchored_slash, hlast]
  simp only [splitOn_append_sep, named_append, List.append_assoc]

theorem components_trailing {cs : List Char} (hne : cs ≠ []) : components ⟨cs ++ ['/']⟩ = components ⟨cs⟩ := by
  rw [components_eq, components_eq, anchored_trailing hne, splitOn_append_sep, named_append]
  exact congrArg _ (List.append_nil _)

theorem join_of_isAbsolute (p : Path) (h : q.isAbsolute = true) : p / q = q := by
  show join p q = q
  rw [join, if_pos h]

/-- A relative path behind another one adds its components. -/
theorem components_join (hne : p.chars ≠ []) (h : q.isAbsolute = false) :
    (p / q).components = p.components ++ named (splitOn '/' q.chars) := by
  obtain ⟨cs⟩ := p
  show (join ⟨cs⟩ q).components = _
  rw [join, if_neg (by simp [h])]
  split
  · next hlast =>
    obtain ⟨front, hfront⟩ := List.getLast?_eq_some_iff.1 (hlast.resolve_left hne)
    simp only at hfront
    subst hfront
    simp only [List.append_assoc, List.singleton_append]
    exact components_slash front q.chars
  · rw [components_slash, components_trailing hne]

theorem components_join_name (p : Path) (h : IsName name) :
    (p / ⟨name⟩).components = p.components ++ [.normal name] := by
  have hnamed : named (splitOn '/' name) = [.normal name] := by
    rw [splitOn_of_notMem h.noSlash]
    exact List.filterMap_cons_some (component?_name h)
  by_cases hne : p.chars = []
  · obtain rfl : p = ⟨[]⟩ := by rw [← hne]
    rw [empty_join, components_eq, anchored_name h, hnamed]
    rfl
  · rw [components_join hne h.not_isAbsolute, hnamed]

/-! ## Paths that are put together from segments -/

/-- Segments that may follow the beginning of a path.  Without a beginning the first one has to be a component. -/
structure Anchor.Takes (a : Anchor) (segments : List (List Char)) : Prop where
  noSlash : ∀ s ∈ segments, '/' ∉ s
  real : a = .nothing → ∀ s ∈ segments.head?, isNoise s = false

theorem Anchor.Takes.mono {a : Anchor} {ss : List (List Char)} (h : a.Takes segments) (hss : ss <+: segments) :
    a.Takes ss := by
  refine ⟨fun s hs => h.noSlash s (hss.subset hs), fun ha s hs => h.real ha s ?_⟩
  obtain ⟨ts, rfl⟩ := hss
  cases ss with
  | nil => simp at hs
  | cons t ts => exact hs

theorem components_withSegments {a : Anchor} (h : a.Takes segments) :
    (a.withSegments segments).components = a.components ++ named segments := by
  cases a with
  | root =>
    cases segments with
    | nil => rfl
    | cons s ss =>
      have hsplit : splitOn '/' ('/' :: joinWith ['/'] (s :: ss)) = [] :: s :: ss := by
        rw [splitOn, if_pos rfl, splitOn_joinWith (List.cons_ne_nil s ss) h.noSlash]
      rw [Anchor.withSegments, components, anchored, hsplit]
      rfl
  | current =>
    have hslash : ∀ s ∈ ['.'] :: segments, '/' ∉ s := List.forall_mem_cons.2 ⟨by decide, h.noSlash⟩
    rw [Anchor.withSegments, components, anchored, splitOn_joinWith (List.cons_ne_nil _ _) hslash]
    rfl
  | nothing =>
    cases segments with
    | nil => rfl
    | cons s ss =>
      have hreal : isNoise s = false := h.real rfl s rfl
      have hsplit := splitOn_joinWith (List.cons_ne_nil s ss) h.noSlash
      rw [Anchor.withSegments, components_eq]
      rcases anchored_cases ⟨joinWith ['/'] (s :: ss)⟩ with
        ⟨t, ts, ht, hanchor⟩ | ⟨ts, ht, hanchor⟩ | ⟨ht, hanchor⟩ | ⟨t, ts, ht, -, hanchor⟩
      · obtain rfl : s = [] := (List.cons.inj (hsplit.symm.trans ht)).1
        simp [isNoise] at hreal
      · obtain rfl : s = ['.'] := (List.cons.inj (hsplit.symm.trans ht)).1
        simp [isNoise] at hreal
      · rw [hanchor, hsplit]
      · rw [hanchor, hsplit]

theorem noSlash_anchored (p : Path) : ∀ s ∈ p.anchored.2, '/' ∉ s := by
  have hmem : ∀ s ∈ p.anchored.2, s ∈ splitOn '/' p.chars := by
    rcases anchored_cases p with ⟨s, ss, hs, h⟩ | ⟨ss, hs, h⟩ | ⟨hs, h⟩ | ⟨s, ss, hs, -, h⟩ <;> rw [h, hs]
    · exact fun _ => List.mem_cons_of_mem _
    · exact fun _ => List.mem_cons_of_mem _
    · exact fun _ => id
    · exact fun _ => id
  exact fun s hs => notMem_of_mem_splitOn (hmem s hs)

theorem takes_trimmed (p : Path) : p.anchored.1.Takes (trimSegments p.anchored.2) := by
  refine ⟨fun s hs => noSlash_anchored p s ((isPrefix_trimSegments _).subset hs), fun hanchor t ht => ?_⟩
  rcases anchored_cases p with ⟨s, ss, hs, h⟩ | ⟨ss, hs, h⟩ | ⟨hs, h⟩ | ⟨s, ss, hs, hreal, h⟩ <;>
    rw [h] at hanchor ht
  · cases hanchor
  · cases hanchor
  · simp [trimSegments, isNoise] at ht
  · have hall : Anchor.nothing.Takes (s :: ss) :=
      ⟨fun u hu => notMem_of_mem_splitOn (hs ▸ hu), fun _ u hu => Option.some.inj hu ▸ hreal⟩
    exact (hall.mono (isPrefix_trimSegments _)).real rfl t ht

/-! ## Stripping -/

theorem components_rest (h : ∀ s ∈ segments, '/' ∉ s) : (dropComponents.rest segments).components = named segments := by
  have hreal : ∀ s ∈ (segments.dropWhile isNoise).head?, isNoise s = false := by
    intro s hs
    have hhead := List.head?_dropWhile_not isNoise segments
    rw [hs] at hhead
    simpa using hhead
  have hall : Anchor.nothing.Takes (segments.dropWhile isNoise) :=
    ⟨fun s hs => h s (List.dropWhile_suffix isNoise |>.subset hs), fun _ => hreal⟩
  have hrest := components_withSegments (hall.mono (isPrefix_trimSegments _))
  rw [named_trimSegments, named_dropWhile] at hrest
  exact hrest

theorem components_dropComponents (n : Nat) (p : Path) : (p.dropComponents n).components = p.components.drop n := by
  have hslash (m : Nat) : ∀ s ∈ dropReal m p.anchored.2, '/' ∉ s :=
    fun s hs => noSlash_anchored p s ((dropReal_suffix m _).subset hs)
  have htakes := takes_trimmed p
  cases hp : p.anchored with
  | mk a segments =>
    have hcomponents : p.components = a.components ++ named segments := by
      rw [components, hp]
      rfl
    rw [hp] at hslash htakes
    rw [hcomponents, dropComponents, hp]
    cases n with
    | zero =>
      show (a.withSegments (trimSegments segments)).components = _
      rw [components_withSegments htakes, named_trimSegments]
      rfl
    | succ n =>
      -- A beginning is one component, and the segments have the others.
      cases a with
      | root =>
        show (dropComponents.rest (dropReal n segments)).components = _
        rw [components_rest (hslash n), named_dropReal]
        rfl
      | current =>
        show (dropComponents.rest (dropReal n segments)).components = _
        rw [components_rest (hslash n), named_dropReal]
        rfl
      | nothing =>
        show (dropComponents.rest (dropReal (n + 1) segments)).components = _
        rw [components_rest (hslash (n + 1)), named_dropReal]
        rfl

/-- What is seen of a path from a base are the components that follow those of the base. -/
theorem components_of_below? (h : below? base p = some rest) : p.components = base.components ++ rest.components := by
  rw [below?] at h
  split at h
  · next hprefix =>
    obtain ⟨cs, hcs⟩ := List.isPrefixOf_iff_prefix.1 hprefix
    obtain rfl := Option.some.inj h
    rw [components_dropComponents, ← hcs, List.drop_left]
  · cases h

/-- As seen from an absolute path, every path is a relative one without a beginning. -/
theorem named_of_below? (hbase : base.isAbsolute = true) (h : below? base p = some rest) :
    rest.isAbsolute = false ∧ named (splitOn '/' rest.chars) = rest.components := by
  have hcomponents := components_of_below? h
  have habsolute : p.isAbsolute = true := by
    rw [← root_mem_components_iff, hcomponents]
    exact List.mem_append_left _ (root_mem_components_iff.2 hbase)
  rw [components_of_isAbsolute hbase, components_of_isAbsolute habsolute, List.cons_append, List.cons.injEq]
    at hcomponents
  have hnamed : ∀ c ∈ rest.components, c ≠ .root ∧ c ≠ .current := by
    intro c hc
    exact ne_of_mem_named (hcomponents.2 ▸ List.mem_append_right _ hc)
  constructor
  · rw [Bool.eq_false_iff]
    intro hrest
    exact absurd rfl (hnamed _ (root_mem_components_iff.2 hrest)).1
  · rw [components_eq rest] at hnamed ⊢
    cases ha : rest.anchored.1 with
    | root => simp [ha, Anchor.components] at hnamed
    | current => simp [ha, Anchor.components] at hnamed
    | nothing => rfl

/-! ## Parents and ancestors -/

/-- The parent of a path has all its components but the last. -/
theorem components_parent? (h : p.parent? = some q) :
    p.components ≠ [] ∧ q.components = p.components.dropLast := by
  have htakes := takes_trimmed p
  cases hp : p.anchored with
  | mk a segments =>
    have hcomponents : p.components = a.components ++ named (trimSegments segments) := by
      rw [components, hp, named_trimSegments]
      rfl
    rw [hp] at htakes
    rw [parent?, hp] at h
    simp only at h
    rcases eq_nil_or_last_real segments with hnil | ⟨front, last, hlast, hreal⟩
    · rw [hnil] at h hcomponents
      rw [hcomponents]
      cases a with
      | current =>
        obtain rfl := Option.some.inj h
        exact ⟨List.cons_ne_nil _ _, rfl⟩
      | root => cases h
      | nothing => cases h
    · have hq : q = a.withSegments (trimSegments front) := by
        rw [hlast] at h
        cases hcons : front ++ [last] with
        | nil => simp at hcons
        | cons s ss =>
          rw [hcons] at h
          have hinit : (s :: ss).dropLast = front := by rw [← hcons, List.dropLast_concat]
          simp only [hinit, Option.some.injEq] at h
          exact h.symm
      have hfront : a.Takes (trimSegments front) :=
        htakes.mono ((isPrefix_trimSegments front).trans (hlast ▸ List.prefix_append front [last]))
      obtain ⟨c, hc⟩ := exists_named_real hreal []
      rw [hcomponents, hq, components_withSegments hfront, named_trimSegments front, hlast, named_append, hc,
        named_nil, ← List.append_assoc, List.dropLast_concat]
      exact ⟨by simp, rfl⟩

/-- The ancestors of a path are the path and the ancestors of its parent. -/
theorem ancestors_eq (p : Path) : p.ancestors = p :: (p.parent?.map ancestors).getD [] := by
  rw [ancestors]
  cases hq : p.parent? with
  | none => cases p.components.length <;> simp [ancestorsWithin, hq]
  | some q =>
    obtain ⟨hne, hcomponents⟩ := components_parent? hq
    have hlength : p.components.length = q.components.length + 1 := by
      have hpos := List.length_pos_of_ne_nil hne
      rw [hcomponents, List.length_dropLast]
      omega
    rw [hlength, ancestorsWithin, hq]
    rfl

theorem ancestors_of_parent? (h : p.parent? = some q) : p.ancestors = p :: q.ancestors := by
  rw [ancestors_eq, h]
  rfl

/-- Every ancestor has fewer components than those before it. -/
theorem pairwise_ancestors (p : Path) :
    p.ancestors.Pairwise fun a b => b.components.length < a.components.length := by
  -- By induction on the number of components, together with a bound for all of them.
  suffices h : ∀ n, ∀ p : Path, p.components.length = n →
      (∀ a ∈ p.ancestors, a.components.length ≤ n) ∧
      p.ancestors.Pairwise fun a b => b.components.length < a.components.length from (h _ p rfl).2
  intro n
  induction n with
  | zero =>
    intro p hp
    have hnone : p.parent? = none := by
      cases hq : p.parent? with
      | none => rfl
      | some q => exact absurd (List.length_eq_zero_iff.1 hp) (components_parent? hq).1
    rw [ancestors_eq, hnone]
    exact ⟨List.forall_mem_singleton.2 (Nat.le_of_eq hp), List.pairwise_singleton _ _⟩
  | succ n ih =>
    intro p hp
    cases hq : p.parent? with
    | none =>
      rw [ancestors_eq, hq]
      exact ⟨List.forall_mem_singleton.2 (Nat.le_of_eq hp), List.pairwise_singleton _ _⟩
    | some q =>
      have hlength : q.components.length = n := by
        rw [(components_parent? hq).2, List.length_dropLast, hp, Nat.add_sub_cancel]
      obtain ⟨hle, hpairwise⟩ := ih q hlength
      rw [ancestors_of_parent? hq]
      constructor
      · intro a ha
        rcases List.mem_cons.1 ha with rfl | ha
        · exact Nat.le_of_eq hp
        · exact Nat.le_succ_of_le (hle a ha)
      · refine List.pairwise_cons.2 ⟨fun a ha => ?_, hpairwise⟩
        have := hle a ha
        omega

/-- Ancestors with the same components are the same. -/
theorem eq_of_mem_ancestors {a b : Path} (ha : a ∈ p.ancestors) (hb : b ∈ p.ancestors)
    (h : a.components = b.components) : a = b := by
  have hnodup : (p.ancestors.map components).Nodup := by
    rw [List.Nodup, List.pairwise_map]
    exact (pairwise_ancestors p).imp fun hlt heq => absurd (congrArg List.length heq) (Nat.ne_of_gt hlt)
  exact List.inj_on_of_nodup_map hnodup ha hb h

end DocLint.Path
