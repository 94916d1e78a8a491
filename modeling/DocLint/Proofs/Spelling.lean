import Mathlib.Data.List.Find
import DocLint.Config.Source
import DocLint.Proofs.Places

/-!
# Spellings of a file in the working directory

A file in the working directory can be checked by its name, by its name behind `./`, or by its absolute path.  The last
two start the search for a configuration in the working directory and go up from there.  A mere name has no directory in
front of it, so that nothing above the working directory is looked at.
-/
namespace DocLint

open DocLint.Text
open DocLint.Path (IsName)
open FileTree (Accepted)

namespace ConfigSource

/-- The place of the configuration, if there is one. -/
def place? (t : FileTree) (s : ConfigSource) : Option Place := s.path?.map (Place.resolve t.workingDirectory)

variable {t : FileTree} {user : Option Path} {d p u : Path} {name : List Char}

/-! ## What is found -/

theorem isName_of_mem_names (h : p ∈ names) : IsName p.chars := by
  rcases List.mem_pair.1 h with rfl | rfl <;> exact ⟨by decide, by decide, by decide⟩

theorem isName_userFileName : IsName userFileName.chars := ⟨by decide, by decide, by decide⟩

theorem exists_of_inDirectory? (h : inDirectory? t d = some p) : ∃ n ∈ names, p = d / n := by
  obtain ⟨n, hn, hp⟩ := List.mem_map.1 (List.mem_of_find?_eq_some h)
  exact ⟨n, hn, hp.symm⟩

theorem exists_of_search {ds : List Path} (h : search t ds = some p) : ∃ d ∈ ds, inDirectory? t d = some p := by
  induction ds with
  | nil => cases h
  | cons d ds ih =>
    rw [search] at h
    split at h
    · next found hfound => exact ⟨d, List.mem_cons_self, hfound.trans h⟩
    · split at h
      · cases h
      · obtain ⟨e, he, hp⟩ := ih h
        exact ⟨e, List.mem_cons_of_mem d he, hp⟩

/-- A search that starts at the empty path ends there. -/
theorem findProject?_empty (t : FileTree) : findProject? t ⟨[]⟩ = inDirectory? t ⟨[]⟩ := by
  rw [findProject?, Path.ancestors_empty, search]
  cases inDirectory? t ⟨[]⟩ with
  | some found => rfl
  | none => exact ite_self none

/-- A configuration of a project and that of a user differ in their names. -/
theorem resolve_ne_of_userFile? (start : Place) (hp : inDirectory? t d = some p) (hu : userFile? t user = some u) :
    Place.resolve start p ≠ Place.resolve start u := by
  obtain ⟨n, hn, rfl⟩ := exists_of_inDirectory? hp
  obtain ⟨dir, -, rfl⟩ := Option.map_eq_some_iff.1 (Option.filter_eq_some_iff.1 hu).1
  rw [Place.resolve_join start d (isName_of_mem_names hn), Place.resolve_join start dir isName_userFileName]
  intro heq
  have hname : n.chars = userFileName.chars := List.singleton_inj.1 (List.append_inj_right' heq rfl)
  rcases List.mem_pair.1 hn with rfl | rfl <;> exact absurd hname (by decide)

theorem place?_resolve (t : FileTree) (user : Option Path) (p : Path) : (resolve t user none p).place? t =
    ((findProject? t (startDirectory t p)).or (userFile? t user)).map (Place.resolve t.workingDirectory) := by
  rw [resolve]
  cases findProject? t (startDirectory t p) with
  | some found => rfl
  | none => cases userFile? t user <;> rfl

/-! ## Where the search starts -/

theorem startDirectory_of_isFile (hfile : t.isFile p = true) (hparent : p.parent? = some d) :
    startDirectory t p = (t.canonical? d).getD d := by
  simp [startDirectory, hfile, hparent]

section InWorkingDirectory

variable (hworking : t.locate t.workingPath = .ok t.workingDirectory) (hname : IsName name)
  (hfile : t.isFile (t.workingPath / ⟨name⟩) = true)
include hworking hname hfile

/-- The file stands in the working directory under its name. -/
theorem exists_step_name : ∃ content, t.node? t.workingDirectory = some .directory ∧
    t.step t.workingDirectory name = .ok (t.workingDirectory ++ [name]) ∧
    t.node? (t.workingDirectory ++ [name]) = some (.file content) ∧ byteLength name ≤ FileTree.nameLimit := by
  obtain ⟨place, content, hplace, hnode⟩ := FileTree.isFile_iff.1 hfile
  rw [FileTree.locate_workingPath_join hworking hname (FileTree.accepted_of_locate hplace)] at hplace
  obtain ⟨hdirectory, henter, hlength⟩ := FileTree.step_eq_ok hplace
  rw [Place.enter_name _ hname] at henter
  subst henter
  exact ⟨content, hdirectory, hplace, hnode, hlength⟩

theorem startDirectory_absolute : startDirectory t (t.workingPath / ⟨name⟩) = t.workingPath := by
  have hproper : Place.Proper (t.workingDirectory ++ [name]) :=
    (FileTree.proper_workingDirectory hworking).concat hname
  have hparent : (t.workingPath / ⟨name⟩).parent? = some t.workingPath := by
    rw [FileTree.workingPath_join hworking hname, Place.parent?_path hproper, FileTree.workingPath]
  rw [startDirectory_of_isFile hfile hparent, FileTree.canonical?, hworking]
  rfl

theorem startDirectory_dotted : startDirectory t ((⟨['.']⟩ : Path) / ⟨name⟩) = t.workingPath := by
  obtain ⟨content, hdirectory, hstep, hnode, hlength⟩ := exists_step_name hworking hname hfile
  have haccepted : Accepted ⟨'.' :: '/' :: name⟩ := by
    have hnul : '\x00' ∉ name := (FileTree.accepted_name hworking hname (FileTree.accepted_of_isFile hfile)).noNul
    have hdot : byteLength ('.' :: '/' :: name) = 1 + (1 + byteLength name) := rfl
    refine ⟨by simpa using hnul, ?_⟩
    show byteLength ('.' :: '/' :: name) ≤ 4095
    have hlength : byteLength name ≤ 255 := hlength
    omega
  have hfound : t.isFile ⟨'.' :: '/' :: name⟩ = true := by
    rw [FileTree.isFile_iff]
    exact ⟨_, content, (FileTree.locate_dot_join hname hdirectory haccepted).trans hstep, hnode⟩
  rw [Path.dot_join hname, startDirectory_of_isFile hfound (Path.parent?_dot hname), FileTree.canonical?,
    FileTree.locate_dot hdirectory]
  rfl

theorem startDirectory_name : startDirectory t ⟨name⟩ = ⟨[]⟩ := by
  obtain ⟨content, -, hstep, hnode, -⟩ := exists_step_name hworking hname hfile
  have haccepted : Accepted ⟨name⟩ := FileTree.accepted_name hworking hname (FileTree.accepted_of_isFile hfile)
  have hfound : t.isFile ⟨name⟩ = true := by
    rw [FileTree.isFile_iff]
    exact ⟨_, content, (FileTree.locate_name hname haccepted).trans hstep, hnode⟩
  exact startDirectory_of_isFile hfound (Path.parent?_name hname)

end InWorkingDirectory

/-! ## Where the search ends -/

theorem findProject?_cons (t : FileTree) (d : Path) : findProject? t d = search t (d :: d.ancestors.tail) := by
  obtain ⟨above, habove⟩ := Path.ancestors_cons d
  rw [findProject?, habove, List.tail_cons]

/-- The search ends where it starts if there is a configuration, if the project ends, or if there is nothing above. -/
theorem inDirectory?_eq_findProject?_iff : inDirectory? t d = findProject? t d ↔
    (inDirectory? t d).isSome = true ∨ isProjectRoot t d = true ∨ search t d.ancestors.tail = none := by
  rw [findProject?_cons, search]
  cases inDirectory? t d with
  | some found => simp
  | none =>
    cases isProjectRoot t d with
    | true => simp
    | false => simp [eq_comm]

theorem resolve_of_inDirectory? {n : Path} (h : inDirectory? t ⟨[]⟩ = some n) :
    n ∈ names ∧ Place.resolve t.workingDirectory n = t.workingDirectory ++ [n.chars] := by
  obtain ⟨m, hm, hn⟩ := exists_of_inDirectory? h
  rw [Path.empty_join] at hn
  subst hn
  have hjoin := Place.resolve_join t.workingDirectory ⟨[]⟩ (isName_of_mem_names hm)
  rw [Path.empty_join] at hjoin
  exact ⟨hm, hjoin⟩

section InWorkingDirectory

variable (hworking : t.locate t.workingPath = .ok t.workingDirectory)
include hworking

/-- A configuration in the working directory is found by its name, too. -/
theorem inDirectory?_workingPath (hroom : ∀ n ∈ names, Accepted (t.workingPath / n)) :
    inDirectory? t t.workingPath = (inDirectory? t ⟨[]⟩).map (t.workingPath / ·) := by
  have hsame : ∀ n ∈ names, t.isFile (t.workingPath / n) = t.isFile n := by
    intro n hn
    have hname : IsName n.chars := isName_of_mem_names hn
    rw [FileTree.isFile, FileTree.stat, FileTree.isFile, FileTree.stat,
      FileTree.locate_workingPath_join hworking hname (hroom n hn),
      FileTree.locate_name hname (FileTree.accepted_name hworking hname (hroom n hn))]
  have hnames : names.map ((⟨[]⟩ : Path) / ·) = names := by simp [Path.empty_join]
  rw [inDirectory?, inDirectory?, List.find?_map, hnames]
  exact congrArg (Option.map (t.workingPath / ·)) (List.find?_congr hsame)

/-- What is found on the way up stands in a directory at or above the working directory. -/
theorem exists_of_findProject? (h : findProject? t t.workingPath = some p) :
    ∃ n ∈ names, ∃ above, above <+: t.workingDirectory ∧ p = Place.path above / n ∧
      Place.resolve t.workingDirectory p = above ++ [n.chars] := by
  obtain ⟨d, hd, hp⟩ := exists_of_search h
  have hproper := FileTree.proper_workingDirectory hworking
  obtain ⟨above, habove, rfl⟩ := Place.exists_of_mem_ancestors hproper hd
  obtain ⟨n, hn, rfl⟩ := exists_of_inDirectory? hp
  refine ⟨n, hn, above, habove, rfl, ?_⟩
  rw [Place.resolve_join _ _ (isName_of_mem_names hn), Place.resolve_path _ (hproper.mono habove)]

/-- The two searches designate the same configuration if and only if the way up ends with what the working directory
holds.  The configuration of the user makes no difference. -/
theorem place?_eq_iff :
    ((inDirectory? t ⟨[]⟩).or (userFile? t user)).map (Place.resolve t.workingDirectory) =
      ((findProject? t t.workingPath).or (userFile? t user)).map (Place.resolve t.workingDirectory) ↔
    (inDirectory? t ⟨[]⟩).map (t.workingPath / ·) = findProject? t t.workingPath := by
  have hproper := FileTree.proper_workingDirectory hworking
  cases hhere : inDirectory? t ⟨[]⟩ with
  | none =>
    cases hup : findProject? t t.workingPath with
    | none => simp
    | some p =>
      obtain ⟨d, -, hp⟩ := exists_of_search hup
      cases hu : userFile? t user with
      | none => simp
      | some u => simpa using (resolve_ne_of_userFile? t.workingDirectory hp hu).symm
  | some n =>
    obtain ⟨hn, hplace⟩ := resolve_of_inDirectory? hhere
    cases hup : findProject? t t.workingPath with
    | none =>
      cases hu : userFile? t user with
      | none => simp
      | some u => simpa using resolve_ne_of_userFile? t.workingDirectory hhere hu
    | some p =>
      obtain ⟨m, hm, above, -, rfl, hup⟩ := exists_of_findProject? hworking hup
      simp only [Option.some_or, Option.map_some, Option.some.injEq, hplace, hup]
      constructor
      · intro heq
        obtain ⟨rfl, hchars⟩ := List.append_inj' heq rfl
        obtain rfl : n = m := congrArg Path.mk (List.singleton_inj.1 hchars)
        rfl
      · intro heq
        have hhere := Place.resolve_join t.workingDirectory t.workingPath (isName_of_mem_names hn)
        rw [FileTree.workingPath, Place.resolve_path _ hproper] at hhere
        exact hhere.symm.trans ((congrArg (Place.resolve t.workingDirectory) heq).trans hup)

end InWorkingDirectory

/-- A file in the working directory has the same configuration by its name behind `./` and by its absolute path.  By
its name alone it has the same one exactly if the way up from the working directory ends with what that directory
holds: if a configuration was asked for, if there is one in it, if it is the root of a project, or if there is nothing
above. -/
theorem resolve_spelling (hworking : t.locate t.workingPath = .ok t.workingDirectory) (hname : IsName name)
    (hfile : t.isFile (t.workingPath / ⟨name⟩) = true) (user explicit : Option Path) :
    resolve t user explicit ((⟨['.']⟩ : Path) / ⟨name⟩) = resolve t user explicit (t.workingPath / ⟨name⟩) ∧
    ((resolve t user explicit ⟨name⟩).place? t = (resolve t user explicit (t.workingPath / ⟨name⟩)).place? t ↔
      explicit.isSome = true ∨ (inDirectory? t ⟨[]⟩).map (t.workingPath / ·) = findProject? t t.workingPath) ∧
    ((∀ n ∈ names, Accepted (t.workingPath / n)) →
      ((inDirectory? t ⟨[]⟩).map (t.workingPath / ·) = findProject? t t.workingPath ↔
        (inDirectory? t t.workingPath).isSome = true ∨ isProjectRoot t t.workingPath = true ∨
          search t t.workingPath.ancestors.tail = none)) := by
  refine ⟨?_, ?_, fun hroom => ?_⟩
  · rw [resolve.eq_def, resolve.eq_def, startDirectory_dotted hworking hname hfile,
      startDirectory_absolute hworking hname hfile]
  · cases explicit with
    | some p => simp [resolve]
    | none =>
      rw [place?_resolve, place?_resolve, startDirectory_name hworking hname hfile,
        startDirectory_absolute hworking hname hfile, findProject?_empty, place?_eq_iff hworking]
      simp
  · rw [← inDirectory?_workingPath hworking hroom]
    exact inDirectory?_eq_findProject?_iff

/-- A project whose configuration is in the directory above the working directory. -/
def nested : FileTree where
  nodes := [(["p".toList], .directory), (["p".toList, "yuidoc-lint.toml".toList], .file .empty),
    (["p".toList, "w".toList], .directory), (["p".toList, "w".toList, "f.js".toList], .file .empty)]
  workingDirectory := ["p".toList, "w".toList]

/-- None of the conditions holds there, so that the spellings differ. -/
theorem resolve_spelling_nested :
    resolve nested none none ((⟨['.']⟩ : Path) / .ofString "f.js") =
      resolve nested none none (nested.workingPath / .ofString "f.js") ∧
    (resolve nested none none (.ofString "f.js")).place? nested ≠
      (resolve nested none none (nested.workingPath / .ofString "f.js")).place? nested := by
  have hname : IsName "f.js".toList := ⟨by decide +kernel, by decide +kernel, by decide +kernel⟩
  have hroom : ∀ n ∈ names, Accepted (nested.workingPath / n) := by
    intro n hn
    rcases List.mem_pair.1 hn with rfl | rfl <;> exact ⟨by decide +kernel, by decide +kernel⟩
  obtain ⟨hdotted, hplace, hup⟩ :=
    resolve_spelling (t := nested) (by decide +kernel) hname (by decide +kernel) none none
  refine ⟨hdotted, fun hsame => ?_⟩
  have hcases := (hup hroom).1 ((hplace.1 hsame).resolve_left (by simp))
  exact absurd hcases (by decide +kernel)

/-- By its name alone the file has no configuration, although there is one for it. -/
theorem resolve_name_misses_config_above :
    nested.locate nested.workingPath = .ok nested.workingDirectory ∧
    nested.isFile (nested.workingPath / .ofString "f.js") = true ∧
    resolve nested none none (.ofString "f.js") = .default ∧
    resolve nested none none ((⟨['.']⟩ : Path) / .ofString "f.js") = .project (.ofString "/p/yuidoc-lint.toml") ∧
    resolve nested none none (nested.workingPath / .ofString "f.js") = .project (.ofString "/p/yuidoc-lint.toml") := by
  decide +kernel

end ConfigSource
end DocLint
