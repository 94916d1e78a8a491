import DocLint.Proofs.Components
import DocLint.Proofs.Spelling

/-!
# The nearest configuration

The search for a configuration goes up from directory to directory.  It ends with the first one that holds a
configuration, and at the latest with the first root of a project, whose own configuration still counts.  Nothing above
that root can change what is found.
-/
namespace DocLint.ConfigSource

open DocLint.Path (IsName)

variable {t s : FileTree} {start d n p : Path}

/-- A directory and a name in it that decide about everything below: the directory is the nearest one with a
configuration, no project ends before it, and the name is the preferred one of those that are there. -/
structure Governs (t : FileTree) (start d n : Path) : Prop where
  nearest : ∃ near far, start.ancestors = near ++ d :: far ∧
    ∀ e ∈ near, (∀ m ∈ names, t.isFile (e / m) = false) ∧ ∀ m ∈ rootMarkers, t.holds (e / m) = false
  preferred : ∃ before after, names = before ++ n :: after ∧ ∀ m ∈ before, t.isFile (d / m) = false
  present : t.isFile (d / n) = true

theorem Governs.mem_ancestors (h : Governs t start d n) : d ∈ start.ancestors := by
  obtain ⟨near, far, hsplit, -⟩ := h.nearest
  simp [hsplit]

theorem Governs.mem_names (h : Governs t start d n) : n ∈ names := by
  obtain ⟨before, after, hsplit, -⟩ := h.preferred
  simp [hsplit]

/-! ## One directory -/

theorem inDirectory?_eq_none_iff : inDirectory? t d = none ↔ ∀ m ∈ names, t.isFile (d / m) = false := by
  rw [inDirectory?, List.find?_eq_none]
  simp

theorem inDirectory?_eq_some_iff : inDirectory? t d = some p ↔
    ∃ n, (∃ before after, names = before ++ n :: after ∧ ∀ m ∈ before, t.isFile (d / m) = false) ∧
      t.isFile (d / n) = true ∧ p = d / n := by
  rw [inDirectory?, List.find?_map, Option.map_eq_some_iff]
  constructor
  · rintro ⟨n, hfind, rfl⟩
    obtain ⟨hpresent, before, after, hsplit, hbefore⟩ := List.find?_eq_some_iff_append.1 hfind
    exact ⟨n, ⟨before, after, hsplit, fun m hm => by simpa using hbefore m hm⟩, hpresent, rfl⟩
  · rintro ⟨n, ⟨before, after, hsplit, hbefore⟩, hpresent, rfl⟩
    refine ⟨n, List.find?_eq_some_iff_append.2 ⟨hpresent, before, after, hsplit, fun m hm => ?_⟩, rfl⟩
    simpa using hbefore m hm

theorem isProjectRoot_eq_false_iff : isProjectRoot t d = false ↔ ∀ m ∈ rootMarkers, t.holds (d / m) = false := by
  rw [isProjectRoot, List.any_eq_false]
  simp

/-! ## The way up -/

theorem search_of_some {ds : List Path} (h : inDirectory? t d = some p) : search t (d :: ds) = some p := by
  rw [search, h]

theorem search_of_none {ds : List Path} (h : inDirectory? t d = none) :
    search t (d :: ds) = if isProjectRoot t d then none else search t ds := by
  rw [search, h]

theorem search_eq_some_iff {ds : List Path} : search t ds = some p ↔ ∃ near d far, ds = near ++ d :: far ∧
    (∀ e ∈ near, inDirectory? t e = none ∧ isProjectRoot t e = false) ∧ inDirectory? t d = some p := by
  -- On the way up, a directory with a configuration ends the search whether it is a root or not.
  induction ds with
  | nil =>
    constructor
    · intro h
      cases h
    · rintro ⟨near, d, far, hsplit, -⟩
      simp at hsplit
  | cons e ds ih =>
    cases hfound : inDirectory? t e with
    | some q =>
      rw [search_of_some hfound]
      constructor
      · intro h
        exact ⟨[], e, ds, rfl, by simp, hfound.trans h⟩
      · rintro ⟨near, d, far, hsplit, hnear, hd⟩
        cases near with
        | nil =>
          obtain ⟨rfl, -⟩ := List.cons.inj hsplit
          exact hfound.symm.trans hd
        | cons c near =>
          obtain ⟨rfl, -⟩ := List.cons.inj hsplit
          rw [(hnear e List.mem_cons_self).1] at hfound
          cases hfound
    | none =>
      rw [search_of_none hfound]
      constructor
      · intro h
        split at h
        · cases h
        · next hroot =>
          obtain ⟨near, d, far, rfl, hnear, hd⟩ := ih.1 h
          exact ⟨e :: near, d, far, rfl, List.forall_mem_cons.2 ⟨⟨hfound, by simpa using hroot⟩, hnear⟩, hd⟩
      · rintro ⟨near, d, far, hsplit, hnear, hd⟩
        cases near with
        | nil =>
          obtain ⟨rfl, -⟩ := List.cons.inj hsplit
          rw [hd] at hfound
          cases hfound
        | cons c near =>
          obtain ⟨rfl, rfl⟩ := List.cons.inj hsplit
          obtain ⟨⟨-, hroot⟩, hnear⟩ := List.forall_mem_cons.1 hnear
          rw [if_neg (by simp [hroot])]
          exact ih.2 ⟨near, d, far, rfl, hnear, hd⟩

theorem findProject?_eq_some_iff : findProject? t start = some p ↔ ∃ d n, Governs t start d n ∧ p = d / n := by
  rw [findProject?, search_eq_some_iff]
  constructor
  · rintro ⟨near, d, far, hsplit, hnear, hd⟩
    obtain ⟨n, hpreferred, hpresent, rfl⟩ := inDirectory?_eq_some_iff.1 hd
    refine ⟨d, n, ⟨⟨near, far, hsplit, fun e he => ?_⟩, hpreferred, hpresent⟩, rfl⟩
    obtain ⟨hnone, hroot⟩ := hnear e he
    exact ⟨inDirectory?_eq_none_iff.1 hnone, isProjectRoot_eq_false_iff.1 hroot⟩
  · rintro ⟨d, n, hgoverns, rfl⟩
    obtain ⟨near, far, hsplit, hnear⟩ := hgoverns.nearest
    refine ⟨near, d, far, hsplit, fun e he => ?_,
      inDirectory?_eq_some_iff.2 ⟨n, hgoverns.preferred, hgoverns.present, rfl⟩⟩
    obtain ⟨hnone, hroot⟩ := hnear e he
    exact ⟨inDirectory?_eq_none_iff.2 hnone, isProjectRoot_eq_false_iff.2 hroot⟩

/-- The path of a configuration tells its directory and its name. -/
theorem eq_of_join_eq {d' n' : Path} (hd : d ∈ start.ancestors) (hd' : d' ∈ start.ancestors) (hn : n ∈ names)
    (hn' : n' ∈ names) (h : d / n = d' / n') : d = d' ∧ n = n' := by
  have hcomponents := congrArg Path.components h
  rw [show n = ⟨n.chars⟩ from rfl, show n' = ⟨n'.chars⟩ from rfl,
    Path.components_join_name d (isName_of_mem_names hn), Path.components_join_name d' (isName_of_mem_names hn')]
    at hcomponents
  obtain ⟨hfront, hlast⟩ := List.append_inj' hcomponents rfl
  have hname : n.chars = n'.chars := Path.Component.normal.inj (List.singleton_inj.1 hlast)
  exact ⟨Path.eq_of_mem_ancestors hd hd' hfront, congrArg Path.mk hname⟩

theorem findProject?_join_iff (hd : d ∈ start.ancestors) (hn : n ∈ names) :
    findProject? t start = some (d / n) ↔ Governs t start d n := by
  rw [findProject?_eq_some_iff]
  constructor
  · rintro ⟨d', n', hgoverns, h⟩
    obtain ⟨rfl, rfl⟩ := eq_of_join_eq hd hgoverns.mem_ancestors hn hgoverns.mem_names h
    exact hgoverns
  · intro hgoverns
    exact ⟨d, n, hgoverns, rfl⟩

theorem findProject?_eq_none_iff : findProject? t start = none ↔ ∀ d n, ¬ Governs t start d n := by
  rw [Option.eq_none_iff_forall_ne_some]
  constructor
  · intro h d n hgoverns
    exact h (d / n) (findProject?_eq_some_iff.2 ⟨d, n, hgoverns, rfl⟩)
  · intro h p hp
    obtain ⟨d, n, hgoverns, -⟩ := findProject?_eq_some_iff.1 hp
    exact h d n hgoverns

/-! ## Trees that agree on the way up -/

/-- Two trees hold the same configurations and the same marks of a root in a directory. -/
structure AgreeIn (t s : FileTree) (d : Path) : Prop where
  names : ∀ n ∈ names, t.isFile (d / n) = s.isFile (d / n)
  markers : ∀ m ∈ rootMarkers, t.holds (d / m) = s.holds (d / m)

theorem AgreeIn.inDirectory?_eq (h : AgreeIn t s d) : inDirectory? t d = inDirectory? s d := by
  rw [inDirectory?, inDirectory?, List.find?_map, List.find?_map]
  exact congrArg (Option.map (d / ·)) (List.find?_congr h.names)

theorem AgreeIn.isProjectRoot_eq (h : AgreeIn t s d) : isProjectRoot t d = isProjectRoot s d := by
  rw [isProjectRoot, isProjectRoot, Bool.eq_iff_iff, List.any_eq_true, List.any_eq_true]
  constructor
  · rintro ⟨m, hm, hholds⟩
    exact ⟨m, hm, h.markers m hm ▸ hholds⟩
  · rintro ⟨m, hm, hholds⟩
    exact ⟨m, hm, (h.markers m hm).symm ▸ hholds⟩

/-- Two trees agree in all directories up to the first root of a project, that one included. -/
def AgreeUpTo (t s : FileTree) (ds : List Path) : Prop :=
  ∀ near d far, ds = near ++ d :: far → (∀ e ∈ near, ∀ m ∈ rootMarkers, t.holds (e / m) = false) → AgreeIn t s d

theorem AgreeUpTo.head {ds : List Path} (h : AgreeUpTo t s (d :: ds)) : AgreeIn t s d :=
  h [] d ds rfl (by simp)

theorem AgreeUpTo.tail {ds : List Path} (h : AgreeUpTo t s (d :: ds)) (hroot : isProjectRoot t d = false) :
    AgreeUpTo t s ds := by
  intro near e far hsplit hnear
  refine h (d :: near) e far (by rw [hsplit, List.cons_append]) ?_
  exact List.forall_mem_cons.2 ⟨isProjectRoot_eq_false_iff.1 hroot, hnear⟩

theorem AgreeUpTo.search_eq {ds : List Path} (h : AgreeUpTo t s ds) : search t ds = search s ds := by
  induction ds with
  | nil => rfl
  | cons d ds ih =>
    have hfound := h.head.inDirectory?_eq
    have hroots := h.head.isProjectRoot_eq
    cases hd : inDirectory? t d with
    | some p => rw [search_of_some hd, search_of_some (hfound ▸ hd)]
    | none =>
      rw [search_of_none hd, search_of_none (hfound ▸ hd), ← hroots]
      cases hroot : isProjectRoot t d with
      | true => rfl
      | false => simpa using ih (h.tail hroot)

/-! ## The order of preference -/

/-- Which configuration counts for what is checked from a directory. -/
inductive Counts (t : FileTree) (user asked : Option Path) (start : Path) : ConfigSource → Prop
  | explicit (p : Path) (hasked : asked = some p) : Counts t user asked start (.explicit p)
  | project (d n : Path) (hasked : asked = none) (hgoverns : Governs t start d n) :
    Counts t user asked start (.project (d / n))
  | user (dir : Path) (hasked : asked = none) (hproject : ∀ d n, ¬ Governs t start d n) (huser : user = some dir)
    (hfile : t.isFile (dir / userFileName) = true) : Counts t user asked start (.user (dir / userFileName))
  | default (hasked : asked = none) (hproject : ∀ d n, ¬ Governs t start d n)
    (hfile : ∀ dir, user = some dir → t.isFile (dir / userFileName) = false) : Counts t user asked start .default

theorem userFile?_eq_some_iff {user : Option Path} : userFile? t user = some p ↔
    ∃ dir, user = some dir ∧ t.isFile (dir / userFileName) = true ∧ p = dir / userFileName := by
  rw [userFile?, Option.filter_eq_some_iff, Option.map_eq_some_iff]
  constructor
  · rintro ⟨⟨dir, hdir, rfl⟩, hfile⟩
    exact ⟨dir, hdir, hfile, rfl⟩
  · rintro ⟨dir, hdir, hfile, rfl⟩
    exact ⟨⟨dir, hdir, rfl⟩, hfile⟩

theorem counts_resolve (t : FileTree) (user asked : Option Path) (checked : Path) :
    Counts t user asked (startDirectory t checked) (resolve t user asked checked) := by
  cases asked with
  | some p => exact .explicit p rfl
  | none =>
    rw [resolve]
    cases hproject : findProject? t (startDirectory t checked) with
    | some p =>
      obtain ⟨d, n, hgoverns, rfl⟩ := findProject?_eq_some_iff.1 hproject
      exact .project d n rfl hgoverns
    | none =>
      have hnone := findProject?_eq_none_iff.1 hproject
      cases huser : userFile? t user with
      | some p =>
        obtain ⟨dir, hdir, hfile, rfl⟩ := userFile?_eq_some_iff.1 huser
        exact .user dir rfl hnone hdir hfile
      | none =>
        refine .default rfl hnone fun dir hdir => Bool.eq_false_iff.2 fun hfile => ?_
        have hsome : userFile? t user = some (dir / userFileName) := userFile?_eq_some_iff.2 ⟨dir, hdir, hfile, rfl⟩
        rw [huser] at hsome
        cases hsome

/-- No two configurations count at once. -/
theorem Counts.unique {user asked : Option Path} {a b : ConfigSource} (ha : Counts t user asked start a)
    (hb : Counts t user asked start b) : a = b := by
  cases ha with
  | explicit p hasked => cases hb <;> simp_all
  | project d n hasked hgoverns =>
    cases hb with
    | explicit p hp => simp_all
    | project d' n' hp hgoverns' =>
      have h := (findProject?_join_iff hgoverns.mem_ancestors hgoverns.mem_names).2 hgoverns
      have h' := (findProject?_join_iff hgoverns'.mem_ancestors hgoverns'.mem_names).2 hgoverns'
      exact congrArg ConfigSource.project (Option.some.inj (h.symm.trans h'))
    | user dir hp hnone => exact absurd hgoverns (hnone d n)
    | default hp hnone => exact absurd hgoverns (hnone d n)
  | user dir hasked hnone hdir hfile =>
    cases hb with
    | explicit p hp => simp_all
    | project d n hp hgoverns => exact absurd hgoverns (hnone d n)
    | user dir' hp hnone' hdir' => simp_all
    | default hp hnone' hfile' => simp [hfile' dir hdir] at hfile
  | default hasked hnone hfile =>
    cases hb with
    | explicit p hp => simp_all
    | project d n hp hgoverns => exact absurd hgoverns (hnone d n)
    | user dir hp hnone' hdir hfile' => simp [hfile dir hdir] at hfile'
    | default => rfl

/-- The search finds the nearest configuration at or above its start, as long as no project ends before it, and nothing
beyond the end of the project has any influence.  What is found this way gives way only to a configuration that was
asked for, and is preferred to that of the user. -/
theorem findProject?_nearest (t : FileTree) (start : Path) :
    (∀ d ∈ start.ancestors, ∀ n ∈ names, findProject? t start = some (d / n) ↔ Governs t start d n) ∧
    (findProject? t start = none ↔ ∀ d n, ¬ Governs t start d n) ∧
    (∀ s : FileTree, AgreeUpTo t s start.ancestors → findProject? s start = findProject? t start) ∧
    (∀ (user asked : Option Path) (checked : Path) (source : ConfigSource),
      resolve t user asked checked = source ↔ Counts t user asked (startDirectory t checked) source) := by
  refine ⟨fun d hd n hn => findProject?_join_iff hd hn, findProject?_eq_none_iff, ?_, ?_⟩
  · intro s hagree
    exact hagree.search_eq.symm
  · intro user asked checked source
    have hcounts := counts_resolve t user asked checked
    constructor
    · intro h
      exact h ▸ hcounts
    · intro h
      exact hcounts.unique h

/-- A project with its configuration beside the mark of its root, and a directory below.  There may be more above. -/
def rooted (above : List (Place × Node)) : FileTree where
  nodes := [(["p".toList], .directory), (["p".toList, "package.json".toList], .file .empty),
    (["p".toList, ".yuidoc-lint.toml".toList], .file .empty), (["p".toList, "w".toList], .directory)] ++ above
  workingDirectory := ["p".toList, "w".toList]

/-- The configuration at the root of the project is found from below, whether there is one above the root or not. -/
theorem findProject?_nearest_at_root :
    Governs (rooted []) (.ofString "/p/w") (.ofString "/p") (.ofString ".yuidoc-lint.toml") ∧
    findProject? (rooted [(["yuidoc-lint.toml".toList], .file .empty)]) (.ofString "/p/w") =
      findProject? (rooted []) (.ofString "/p/w") ∧
    Counts (rooted []) (some (.ofString "/p")) none (.ofString "/p/w")
      (.project (.ofString "/p/.yuidoc-lint.toml")) := by
  have hancestors : (Path.ofString "/p/w").ancestors = [.ofString "/p/w", .ofString "/p", .ofString "/"] := by
    decide +kernel
  obtain ⟨hsome, -, hagree, hcounts⟩ := findProject?_nearest (rooted []) (.ofString "/p/w")
  refine ⟨?_, hagree _ ?_, ?_⟩
  · exact (hsome (.ofString "/p") (by decide +kernel) (.ofString ".yuidoc-lint.toml") (by decide +kernel)).1
      (by decide +kernel)
  · intro near d far hsplit hnear
    rw [hancestors] at hsplit
    rcases near with - | ⟨a, - | ⟨b, near⟩⟩
    · obtain ⟨rfl, -⟩ := List.cons.inj hsplit
      exact ⟨by decide +kernel, by decide +kernel⟩
    · obtain ⟨-, hsplit⟩ := List.cons.inj hsplit
      obtain ⟨rfl, -⟩ := List.cons.inj hsplit
      exact ⟨by decide +kernel, by decide +kernel⟩
    · obtain ⟨-, hsplit⟩ := List.cons.inj hsplit
      obtain ⟨rfl, -⟩ := List.cons.inj hsplit
      have hmark := hnear (.ofString "/p") (by simp) (.ofString "package.json") (by decide +kernel)
      exact absurd hmark (by decide +kernel)
  · have hstart : startDirectory (rooted []) (.ofString "/p/w") = .ofString "/p/w" := by decide +kernel
    rw [← hstart]
    exact (hcounts (some (.ofString "/p")) none (.ofString "/p/w") _).1 (by decide +kernel)

end DocLint.ConfigSource
