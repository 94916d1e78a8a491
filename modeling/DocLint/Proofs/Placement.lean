import DocLint.Project
import DocLint.Proofs.DirectoryPattern

/-!
# Where a project lives

Exclude patterns are matched against full paths.  A pattern for the directories of some name excludes the files in such
directories of the project, but also every file of a project that lives in such a directory itself.  Only below roots
without any of the names in question are the checked files a matter of the project alone.
-/
namespace DocLint

open DocLint.Text
open DocLint.Path (IsName)
open DocLint.Glob (everythingIn)

variable {name file : List Char} {dirs names : List (List Char)} {p q : Project} {a b : Place}

/-! ## Paths below a root -/

namespace Path

instance (name : List Char) : Decidable (IsName name) :=
  decidable_of_iff (isNoise name = false ∧ name ≠ ['.', '.'] ∧ '/' ∉ name)
    ⟨fun ⟨hreal, hparent, hslash⟩ => ⟨hreal, hparent, hslash⟩, fun h => ⟨h.real, h.notParent, h.noSlash⟩⟩

/-- The path of something that is reached from a directory by some names. -/
def descend (root : Path) (names : List (List Char)) : Path := names.foldl (fun path name => path / ⟨name⟩) root

theorem descend_concat (root : Path) (dirs : List (List Char)) (file : List Char) :
    root.descend (dirs ++ [file]) = root.descend dirs / ⟨file⟩ := List.foldl_concat _ _ _ _

theorem named_names (h : ∀ name ∈ names, IsName name) : named names = names.map .normal := by
  rw [named, ← List.filterMap_eq_map]
  exact List.filterMap_congr fun name hname => component?_name (h name hname)

theorem components_descend (root : Path) (h : ∀ name ∈ names, IsName name) :
    (root.descend names).components = root.components ++ names.map .normal := by
  induction names using List.reverseRecOn with
  | nil => simp [descend]
  | append_singleton dirs file ih =>
    obtain ⟨hdirs, hfile⟩ := List.forall_mem_append.1 h
    rw [descend_concat, components_join_name _ (hfile file List.mem_cons_self), ih hdirs, List.map_append,
      List.append_assoc]
    rfl

theorem descend_inj {root : Path} {others : List (List Char)} (h : ∀ name ∈ names, IsName name)
    (hothers : ∀ name ∈ others, IsName name) (heq : root.descend names = root.descend others) : names = others := by
  have hcomponents := congrArg components heq
  rw [components_descend root h, components_descend root hothers, List.append_cancel_left_eq] at hcomponents
  exact List.map_injective_iff.2 (fun _ _ => Component.normal.inj) hcomponents

theorem extension?_descend (root : Path) (h : IsName file) (dirs : List (List Char)) :
    (root.descend (dirs ++ [file])).extension? = nameExtension? file := by
  rw [extension?, fileName?, descend_concat, components_join_name _ h, List.getLast?_concat]
  rfl

/-- Is a segment one of the components of a path? -/
def hasComponent (path : Path) (segment : List Char) : Bool := (component? segment).any fun c => c ∈ path.components

theorem hasComponent_iff {path : Path} (h : isNoise name = false) :
    path.hasComponent name = true ↔ name ∈ splitOn '/' path.chars := by
  cases hc : component? name with
  | none => simp [component?_eq_none_iff.1 hc] at h
  | some c =>
    have hanchor : c ∉ path.anchored.1.components := by
      have hne := ne_of_mem_named ((mem_named_iff hc).2 (List.mem_singleton_self name))
      cases path.anchored.1 <;> simp [Anchor.components, hne]
    rw [hasComponent, hc, Option.any_some, decide_eq_true_iff, components_eq, List.mem_append, mem_named_iff hc]
    simp [hanchor]

theorem hasComponent_descend (root : Path) (hname : isNoise name = false) (h : ∀ name ∈ names, IsName name) :
    (root.descend names).hasComponent name = true ↔ root.hasComponent name = true ∨ name ∈ names := by
  cases hc : component? name with
  | none => simp [component?_eq_none_iff.1 hc] at hname
  | some c =>
    simp only [hasComponent, hc, Option.any_some, decide_eq_true_iff]
    rw [components_descend root h, ← named_names h, List.mem_append, mem_named_iff hc]

/-- Behind the last slash of a path stands its last name. -/
theorem mem_dropLast_splitOn_join {path : Path} (hname : name ≠ []) (hfile : IsName file) :
    name ∈ (splitOn '/' (path / ⟨file⟩).chars).dropLast ↔ name ∈ splitOn '/' path.chars := by
  have hsplit : splitOn '/' file = [file] := splitOn_of_notMem hfile.noSlash
  obtain ⟨cs⟩ := path
  rcases join_cases ⟨cs⟩ hfile with ⟨rfl, hjoin⟩ | ⟨front, rfl, hjoin⟩ | ⟨-, hjoin⟩
  · rw [hjoin, hsplit]
    simp [splitOn, hname]
  · rw [hjoin, splitOn_append_sep, splitOn_append_sep, hsplit, List.dropLast_concat]
    simp [splitOn, hname]
  · rw [hjoin, splitOn_append_sep, hsplit, List.dropLast_concat]

end Path

/-! ## Excluded paths -/

/-- A name that a pattern can ask for: a single component whose characters stand for themselves. -/
structure Glob.IsDirectoryName (name : List Char) : Prop where
  real : Path.isNoise name = false
  noSlash : '/' ∉ name
  plain : Glob.IsPlain name

theorem Glob.excludes_descend_iff (hname : Glob.IsDirectoryName name) (root : Path)
    (hdirs : ∀ name ∈ dirs, IsName name) (hfile : IsName file) :
    Glob.excludes (everythingIn name) (root.descend (dirs ++ [file])).chars = true ↔
      root.hasComponent name = true ∨ name ∈ dirs := by
  have hne : name ≠ [] := by
    rintro rfl
    exact absurd hname.real (by decide)
  rw [Glob.excludes_everythingIn_iff hname.noSlash hname.plain, Path.descend_concat,
    Path.mem_dropLast_splitOn_join hne hfile, ← Path.hasComponent_iff hname.real,
    Path.hasComponent_descend root hname.real hdirs]

namespace Project

/-- The patterns of a project are those for the directories of some names. -/
structure ExcludesOnly (p : Project) (leftOut : List (List Char)) : Prop where
  patterns : p.exclude = leftOut.map fun name => String.ofList (everythingIn name)
  names : ∀ name ∈ leftOut, Glob.IsDirectoryName name

theorem isExcluded_descend_iff {leftOut : List (List Char)} (h : p.ExcludesOnly leftOut) (root : Path)
    (hdirs : ∀ name ∈ dirs, IsName name) (hfile : IsName file) :
    p.isExcluded (root.descend (dirs ++ [file])) = true ↔
      ∃ name ∈ leftOut, root.hasComponent name = true ∨ name ∈ dirs := by
  rw [isExcluded, h.patterns, List.any_map, List.any_eq_true]
  refine exists_congr fun name => and_congr_right fun hname => ?_
  rw [Function.comp_apply, String.toList_ofList, Glob.excludes_descend_iff (h.names name hname) root hdirs hfile]

/-! ## Checked files -/

/-- The root of a project is a directory at a place, and everything that leads from there to a file has a name. -/
structure RootedAt (p : Project) (place : Place) : Prop where
  located : p.tree.locate p.root = .ok place
  directory : p.tree.node? place = some .directory
  named : ∀ names content, (place ++ names, Node.file content) ∈ p.tree.nodes → names ≠ [] ∧ ∀ name ∈ names, IsName name

/-- Is a file checked that is reached from the root by some names? -/
def Checks (p : Project) (names : List (List Char)) : Prop :=
  ∃ files, p.files = .ok files ∧ p.root.descend names ∈ files

theorem pathBelow_append (p : Project) (place : Place) (names : List (List Char)) :
    p.pathBelow place (place ++ names) = p.root.descend names := by
  rw [pathBelow, List.drop_left, Path.descend]

theorem exists_files (h : p.RootedAt a) : ∃ files, p.files = .ok files ∧ ∀ path, path ∈ files ↔
    ∃ names content, (a ++ names, Node.file content) ∈ p.tree.nodes ∧ p.isReached a (a ++ names) = true ∧
      path = p.root.descend names ∧ (p.language? path).isSome = true ∧ p.isExcluded path = false := by
  rw [files, h.located]
  simp only [bind, Except.bind, h.directory]
  refine ⟨_, rfl, fun path => ?_⟩
  rw [List.mem_mergeSort, List.mem_filter, List.mem_filterMap]
  constructor
  · rintro ⟨⟨⟨place, node⟩, hmem, hpath⟩, hkept⟩
    cases node with
    | directory => cases hpath
    | file content =>
      simp only [Option.ite_none_right_eq_some, Option.some.injEq, Bool.and_eq_true] at hpath
      obtain ⟨⟨hbelow, hreached⟩, rfl⟩ := hpath
      obtain ⟨names, rfl⟩ := List.isPrefixOf_iff_prefix.1 hbelow
      rw [Bool.and_eq_true, Bool.not_eq_true'] at hkept
      exact ⟨names, content, hmem, hreached, pathBelow_append p a names, hkept⟩
  · rintro ⟨names, content, hmem, hreached, rfl, hlanguage, hexcluded⟩
    refine ⟨⟨_, hmem, ?_⟩, by simp [hlanguage, hexcluded]⟩
    have hbelow : a.isPrefixOf (a ++ names) = true := List.isPrefixOf_iff_prefix.2 (List.prefix_append a names)
    simp [hbelow, hreached, pathBelow_append]

theorem checks_iff (h : p.RootedAt a) (hnames : ∀ name ∈ names, IsName name) : p.Checks names ↔
    (∃ content, (a ++ names, Node.file content) ∈ p.tree.nodes) ∧ p.isReached a (a ++ names) = true ∧
      (p.language? (p.root.descend names)).isSome = true ∧ p.isExcluded (p.root.descend names) = false := by
  obtain ⟨files, hfiles, hmem⟩ := exists_files h
  constructor
  · rintro ⟨found, hfound, hpath⟩
    obtain rfl : files = found := Except.ok.inj (hfiles.symm.trans hfound)
    obtain ⟨others, content, hnode, hreached, heq, hkept⟩ := (hmem _).1 hpath
    obtain rfl := Path.descend_inj hnames (h.named others content hnode).2 heq
    exact ⟨⟨content, hnode⟩, hreached, hkept⟩
  · rintro ⟨⟨content, hnode⟩, hreached, hkept⟩
    exact ⟨files, hfiles, (hmem _).2 ⟨names, content, hnode, hreached, rfl, hkept⟩⟩

/-- Nothing is checked below a root in a directory that is left out. -/
theorem files_of_hasComponent {leftOut : List (List Char)} (h : p.RootedAt a) (hexclude : p.ExcludesOnly leftOut)
    (hname : name ∈ leftOut) (hroot : p.root.hasComponent name = true) : p.files = .ok [] := by
  obtain ⟨files, hfiles, hmem⟩ := exists_files h
  obtain rfl : files = [] := by
    rw [List.eq_nil_iff_forall_not_mem]
    intro path hpath
    obtain ⟨names, content, hnode, -, rfl, -, hexcluded⟩ := (hmem path).1 hpath
    obtain ⟨hne, hnames⟩ := h.named names content hnode
    obtain ⟨dirs, file, rfl⟩ := (List.eq_nil_or_concat' names).resolve_left hne
    obtain ⟨hdirs, hfile⟩ := List.forall_mem_append.1 hnames
    have hiff := isExcluded_descend_iff hexclude p.root hdirs (hfile file List.mem_cons_self)
    rw [hiff.2 ⟨name, hname, .inl hroot⟩] at hexcluded
    cases hexcluded
  exact hfiles

/-- The same project at two places: the same files below the roots, written in the same languages, and none of them
ignored at one place only. -/
structure SameBelow (p q : Project) (a b : Place) : Prop where
  languages : p.languages = q.languages
  files : ∀ names content,
    (a ++ names, Node.file content) ∈ p.tree.nodes ↔ (b ++ names, Node.file content) ∈ q.tree.nodes
  reached : ∀ names content, (a ++ names, Node.file content) ∈ p.tree.nodes →
    p.isReached a (a ++ names) = q.isReached b (b ++ names)

theorem language?_congr {path other : Path} (h : p.languages = q.languages)
    (hextension : path.extension? = other.extension?) : p.language? path = q.language? other := by
  simp only [language?, Language.handles, h, hextension]

theorem SameBelow.checks_iff {leftOut : List (List Char)} (h : SameBelow p q a b) (hp : p.RootedAt a)
    (hq : q.RootedAt b) (hpexclude : p.ExcludesOnly leftOut) (hqexclude : q.ExcludesOnly leftOut)
    (hroots : ∀ name ∈ leftOut, p.root.hasComponent name = q.root.hasComponent name)
    (hnames : ∀ name ∈ names, IsName name) : p.Checks names ↔ q.Checks names := by
  rw [Project.checks_iff hp hnames, Project.checks_iff hq hnames, ← exists_congr (h.files names)]
  refine and_congr_right fun ⟨content, hnode⟩ => ?_
  obtain ⟨dirs, file, rfl⟩ := (List.eq_nil_or_concat' names).resolve_left (hp.named names content hnode).1
  obtain ⟨hdirs, hlast⟩ := List.forall_mem_append.1 hnames
  have hfile : IsName file := hlast file List.mem_cons_self
  -- The language depends on the last name only, the exclusion on the other names and on the root.
  have hlanguage : p.language? (p.root.descend (dirs ++ [file])) = q.language? (q.root.descend (dirs ++ [file])) := by
    apply language?_congr h.languages
    rw [Path.extension?_descend _ hfile, Path.extension?_descend _ hfile]
  have hexcluded : p.isExcluded (p.root.descend (dirs ++ [file])) = q.isExcluded (q.root.descend (dirs ++ [file])) := by
    rw [Bool.eq_iff_iff, isExcluded_descend_iff hpexclude _ hdirs hfile,
      isExcluded_descend_iff hqexclude _ hdirs hfile]
    exact exists_congr fun name => and_congr_right fun hname => by rw [hroots name hname]
  rw [h.reached _ content hnode, hlanguage, hexcluded]

/-- A pattern for the directories of a name excludes a file if and only if the name leads to it, below the root or
above.  So nothing is checked below a root with such a name in it, and a project has the same checked files at two
places if their roots have the same of these names in them. -/
theorem exclusion_of_placement (p : Project) (leftOut : List (List Char)) (hexclude : p.ExcludesOnly leftOut) :
    (∀ name ∈ leftOut, ∀ (root : Path) (dirs : List (List Char)) (file : List Char), (∀ dir ∈ dirs, IsName dir) →
      IsName file → (Glob.excludes (everythingIn name) (root.descend (dirs ++ [file])).chars = true ↔
        root.hasComponent name = true ∨ name ∈ dirs)) ∧
    (∀ a : Place, p.RootedAt a → (∃ name ∈ leftOut, p.root.hasComponent name = true) → p.files = .ok []) ∧
    (∀ (q : Project) (a b : Place), SameBelow p q a b → p.RootedAt a → q.RootedAt b → q.ExcludesOnly leftOut →
      (∀ name ∈ leftOut, p.root.hasComponent name = q.root.hasComponent name) →
      ∀ names : List (List Char), (∀ name ∈ names, IsName name) → (p.Checks names ↔ q.Checks names)) := by
  refine ⟨?_, ?_, ?_⟩
  · intro name hname root dirs file hdirs hfile
    exact Glob.excludes_descend_iff (hexclude.names name hname) root hdirs hfile
  · rintro a hrooted ⟨name, hname, hroot⟩
    exact files_of_hasComponent hrooted hexclude hname hroot
  · intro q a b hsame hp hq hqexclude hroots names hnames
    exact hsame.checks_iff hp hq hexclude hqexclude hroots hnames

/-- A project in a directory, with a file of its own and one that was built. -/
def livingIn (above : String) : Project where
  tree := {
    nodes := [([above.toList], .directory), ([above.toList, "p".toList], .directory),
      ([above.toList, "p".toList, "a.js".toList], .file .empty),
      ([above.toList, "p".toList, "build".toList], .directory),
      ([above.toList, "p".toList, "build".toList, "b.js".toList], .file .empty)]
    workingDirectory := [above.toList, "p".toList] }
  root := Place.path [above.toList, "p".toList]
  config := {}
  rules := {}
  exclude := ["**/build/**"]

theorem mem_nodes_livingIn (above : String) (names : List (List Char)) (content : ByteArray) :
    ([above.toList, "p".toList] ++ names, Node.file content) ∈ (livingIn above).tree.nodes ↔
      (names = ["a.js".toList] ∨ names = ["build".toList, "b.js".toList]) ∧ content = .empty := by
  simp only [livingIn, List.mem_cons, Prod.mk.injEq, List.cons_append, List.nil_append, List.cons.injEq, reduceCtorEq,
    and_false, false_or, true_and, List.not_mem_nil, or_false, Node.file.injEq, or_and_right]

theorem rootedAt_livingIn {above : String}
    (hlocate : (livingIn above).tree.locate (livingIn above).root = .ok [above.toList, "p".toList]) :
    (livingIn above).RootedAt [above.toList, "p".toList] := by
  refine ⟨hlocate, by simp [livingIn, FileTree.node?, List.lookup_cons], fun names content hnode => ?_⟩
  rcases (mem_nodes_livingIn above names content).1 hnode with ⟨rfl | rfl, -⟩
  · exact ⟨by simp, by decide +kernel⟩
  · exact ⟨by simp, by decide +kernel⟩

theorem excludesOnly_livingIn (above : String) : (livingIn above).ExcludesOnly ["build".toList] := by
  have hpattern : ["**/build/**"] = ["build".toList].map fun name => String.ofList (everythingIn name) := by
    decide +kernel
  refine ⟨hpattern, fun name hname => ?_⟩
  obtain rfl := List.mem_singleton.1 hname
  exact ⟨by decide +kernel, by decide +kernel, by decide +kernel⟩

/-- Below two directories of other names the same is checked, and below a directory of that name nothing. -/
theorem exclusion_of_placement_in_three_places :
    Glob.IsDirectoryName "build".toList ∧
    Glob.excludes (everythingIn "build".toList)
      ((Path.ofString "/lib//p/.").descend ["build".toList, "b.js".toList]).chars = true ∧
    ((livingIn "lib").Checks ["a.js".toList] ↔ (livingIn "src").Checks ["a.js".toList]) ∧
    (livingIn "build").files = .ok [] := by
  obtain ⟨hexcludes, -, hsame⟩ := exclusion_of_placement (livingIn "lib") ["build".toList] (excludesOnly_livingIn "lib")
  obtain ⟨-, hnothing, -⟩ := exclusion_of_placement (livingIn "build") ["build".toList] (excludesOnly_livingIn "build")
  have hbelow : SameBelow (livingIn "lib") (livingIn "src") ["lib".toList, "p".toList] ["src".toList, "p".toList] := by
    refine ⟨rfl, fun names content => ?_, fun names content hnode => ?_⟩
    · rw [mem_nodes_livingIn, mem_nodes_livingIn]
    · rcases (mem_nodes_livingIn "lib" names content).1 hnode with ⟨rfl | rfl, -⟩ <;> decide +kernel
  refine ⟨(excludesOnly_livingIn "lib").names _ List.mem_cons_self, ?_, ?_, ?_⟩
  · exact (hexcludes _ List.mem_cons_self (.ofString "/lib//p/.") ["build".toList] "b.js".toList (by decide +kernel)
      (by decide +kernel)).2 (.inr List.mem_cons_self)
  · exact hsame (livingIn "src") _ _ hbelow (rootedAt_livingIn (by decide +kernel))
      (rootedAt_livingIn (by decide +kernel)) (excludesOnly_livingIn "src") (by decide +kernel) ["a.js".toList]
      (by decide +kernel)
  · exact hnothing _ (rootedAt_livingIn (by decide +kernel)) (by decide +kernel)

/-- One and the same project has a file to check in one place and none in another, although no directory of the project
leads to that file. -/
theorem files_depend_on_directory_above :
    Glob.excludes (everythingIn "build".toList) ((Path.ofString "/build/p").descend ["a.js".toList]).chars = true ∧
    (livingIn "build").files = .ok [] ∧ (livingIn "lib").files = .ok [.ofString "/lib/p/a.js"] := by
  decide +kernel

end Project
end DocLint
