import DocLint.Project
import DocLint.Proofs.SameFindings
import DocLint.Proofs.Stability

/-!
# Reports on several files

A report on several files is put together from what each file gives alone: violations, or one failure.  Nothing is lost
on the way, and files that are reported under different paths never tie in a listing.  So the order in which the files
are taken does not matter, and a failing file leaves no trace but its failure.
-/
namespace DocLint

attribute [ext] Report

namespace Report

theorem violations_concat (rs : List Report) : (concat rs).violations = rs.flatMap Report.violations := by
  induction rs with
  | nil => rfl
  | cons r rs ih =>
    rw [List.flatMap_cons, ← ih]
    rfl

theorem failures_concat (rs : List Report) : (concat rs).failures = rs.flatMap Report.failures := by
  induction rs with
  | nil => rfl
  | cons r rs ih =>
    rw [List.flatMap_cons, ← ih]
    rfl

theorem filesChecked_concat_cons (r : Report) (rs : List Report) :
    (concat (r :: rs)).filesChecked = r.filesChecked + (concat rs).filesChecked := rfl

end Report

namespace Project

variable (p : Project)

/-- The violations that a file gives; a failing file gives none. -/
def violationsOf (path : Path) : List Violation :=
  match p.analyzeFile path with
  | .ok violations => violations
  | .error _ => []

/-- The failure of a file that cannot be analysed. -/
def failure? (path : Path) : Option FileFailure :=
  match p.analyzeFile path with
  | .ok _ => none
  | .error e => some ⟨p.relative path, e.message⟩

def isChecked (path : Path) : Bool := (p.failure? path).isNone

/-- A file has a language, its text is read, and in that language the text has these violations. -/
def Gives (path : Path) (vs : List Violation) : Prop :=
  ∃ l source, p.language? path = some l ∧ p.tree.readText path = .ok source ∧
    analyzeSource l p.config p.rules (p.relative path) source.toList = .ok vs

theorem analyzeFile_eq_ok_iff (path : Path) (vs : List Violation) :
    p.analyzeFile path = .ok vs ↔ p.Gives path vs := by
  unfold analyzeFile Gives
  cases p.language? path with
  | none => simp
  | some l =>
    cases p.tree.readText path with
    | error e => simp
    | ok source =>
      cases ha : analyzeSource l p.config p.rules (p.relative path) source.toList <;>
        simp [analyzeText, ha, Except.mapError]

/-- The checked files are those that give something, and what they give are their violations. -/
theorem gives_iff (path : Path) (vs : List Violation) :
    p.Gives path vs ↔ p.isChecked path = true ∧ p.violationsOf path = vs := by
  rw [← analyzeFile_eq_ok_iff, isChecked, failure?, violationsOf]
  cases p.analyzeFile path <;> simp

theorem reportFile_eq (path : Path) : p.reportFile path =
    ⟨p.violationsOf path, if p.isChecked path then 1 else 0, (p.failure? path).toList⟩ := by
  unfold reportFile isChecked violationsOf failure?
  cases p.analyzeFile path <;> rfl

theorem violations_analyzeFiles (paths : List Path) :
    (p.analyzeFiles paths).violations = Violation.sorted (paths.flatMap p.violationsOf) := by
  simp only [analyzeFiles, Report.sorted, Report.violations_concat, List.flatMap_map, reportFile_eq]

theorem failures_analyzeFiles (paths : List Path) : (p.analyzeFiles paths).failures =
    (paths.flatMap fun path => (p.failure? path).toList).mergeSort fun a b => (FileFailure.order a b).isLE := by
  simp only [analyzeFiles, Report.sorted, Report.failures_concat, List.flatMap_map, reportFile_eq]
  rfl

theorem filesChecked_analyzeFiles (paths : List Path) :
    (p.analyzeFiles paths).filesChecked = paths.countP p.isChecked := by
  simp only [analyzeFiles, Report.sorted]
  induction paths with
  | nil => rfl
  | cons path paths ih =>
    rw [List.map_cons, Report.filesChecked_concat_cons, ih, reportFile_eq, List.countP_cons, Nat.add_comm]

/-- Every file is checked or fails. -/
theorem filesChecked_add_length_failures (paths : List Path) :
    (p.analyzeFiles paths).filesChecked + (p.analyzeFiles paths).failures.length = paths.length := by
  rw [filesChecked_analyzeFiles, failures_analyzeFiles, List.length_mergeSort]
  induction paths with
  | nil => rfl
  | cons path paths ih =>
    rw [List.countP_cons, List.flatMap_cons, List.length_append, List.length_cons, isChecked]
    cases p.failure? path with
    | none =>
      simp only [Option.isNone_none, if_true, Option.toList_none, List.length_nil]
      omega
    | some failure =>
      simp only [Option.isNone_some, Bool.false_eq_true, if_false, Option.toList_some, List.length_cons,
        List.length_nil]
      omega

end Project

/-! ## Where violations are reported -/

/-- Every rule reports in the file that it looks at. -/
structure RuleSet.Local (rules : RuleSet) : Prop where
  blocks : ∀ r ∈ rules.blockRules, ∀ view, ∀ v ∈ r.check view, v.location.file = view.file.path
  files : ∀ r ∈ rules.fileRules, ∀ f bs, ∀ v ∈ r.check f bs, v.location.file = f.path

theorem RuleSet.local_ofConfig {c : Config} {rules : RuleSet} (h : RuleSet.ofConfig c = .ok rules) : rules.Local where
  blocks r hr view v hv := by
    rw [(((RuleSet.telling_ofConfig h).told r hr).stamped view v hv).2]
    exact view.file.file_location view.block.opener
  files r hr f bs v hv := by
    obtain rfl := List.mem_singleton.1 ((RuleSet.telling_ofConfig h).files.subset hr)
    rw [Rule.eq_of_mem_modulePresence hv]
    exact f.file_location 0

theorem FileView.file_of_mem_analyze {f : FileView} {c : Config} {rules : RuleSet} (h : rules.Local) {v : Violation}
    (hv : v ∈ f.analyze c rules) : v.location.file = f.path := by
  have hadjust : ∀ {r : RuleInfo} {vs : List Violation}, (∀ u ∈ vs, u.location.file = f.path) → v ∈ c.adjust r vs →
      v.location.file = f.path := by
    intro r vs hvs hv
    obtain ⟨u, hu, rfl⟩ := exists_of_mem_adjust hv
    exact hvs u hu
  have hv := (Violation.sorted_perm _).mem_iff.1 hv
  simp only [found, blockViolations, fileViolations, List.mem_append, List.mem_flatMap] at hv
  rcases hv with (⟨o, -, hv⟩ | ⟨b, -, r, hr, hv⟩) | ⟨r, hr, hv⟩
  · apply hadjust _ hv
    intro u hu
    rw [List.mem_singleton.1 hu]
    exact f.file_location o
  · exact hadjust (h.blocks r hr (f.blockView b)) hv
  · exact hadjust (h.files r hr f f.blocks) hv

namespace Project

variable {p : Project} {path : Path} {paths : List Path}

theorem violationsOf_of_not_isChecked (h : p.isChecked path = false) : p.violationsOf path = [] := by
  unfold isChecked failure? at h
  unfold violationsOf
  cases ha : p.analyzeFile path with
  | ok violations =>
    rw [ha] at h
    cases h
  | error e => rfl

/-- The violations of a file are the listing of its text, if it is read at all. -/
theorem violationsOf_eq (p : Project) (path : Path) : p.violationsOf path = [] ∨
    ∃ stream, p.violationsOf path = (FileView.mk (p.relative path) stream).analyze p.config p.rules := by
  cases hc : p.isChecked path with
  | false => exact .inl (violationsOf_of_not_isChecked hc)
  | true =>
    obtain ⟨l, source, -, -, hgives⟩ := (p.gives_iff path _).2 ⟨hc, rfl⟩
    rw [analyzeSource] at hgives
    cases hread : l.read source.toList with
    | error e =>
      rw [hread] at hgives
      cases hgives
    | ok stream =>
      rw [hread] at hgives
      exact .inr ⟨stream, (Except.ok.inj hgives).symm⟩

theorem file_of_mem_violationsOf (h : p.rules.Local) {v : Violation} (hv : v ∈ p.violationsOf path) :
    v.location.file = p.relative path := by
  cases p.violationsOf_eq path with
  | inl hnil =>
    rw [hnil] at hv
    cases hv
  | inr hs =>
    obtain ⟨stream, hs⟩ := hs
    rw [hs] at hv
    exact FileView.file_of_mem_analyze h hv

theorem file_of_mem_failure? {f : FileFailure} (h : f ∈ p.failure? path) : f.file = p.relative path := by
  unfold failure? at h
  split at h
  · cases h
  · obtain rfl := Option.some.inj h
    rfl

/-- Alone, a file gives its violations. -/
theorem violations_analyzeFiles_singleton (p : Project) (path : Path) :
    (p.analyzeFiles [path]).violations = p.violationsOf path := by
  rw [violations_analyzeFiles, List.flatMap_cons, List.flatMap_nil, List.append_nil]
  apply List.mergeSort_of_pairwise
  cases p.violationsOf_eq path with
  | inl hnil =>
    rw [hnil]
    exact .nil
  | inr hs =>
    obtain ⟨stream, hs⟩ := hs
    rw [hs]
    exact Violation.pairwise_sorted _

/-! ## Files under different paths -/

/-- No two of the files are reported under the same path. -/
def Distinct (p : Project) (paths : List Path) : Prop :=
  paths.Pairwise fun a b => (p.relative a).components ≠ (p.relative b).components

/-- The order in which files are taken does not matter. -/
theorem analyzeFiles_perm (hlocal : p.rules.Local) (hpaths : p.Distinct paths) {others : List Path}
    (hperm : others.Perm paths) : p.analyzeFiles others = p.analyzeFiles paths := by
  have hviolations : (p.analyzeFiles others).violations = (p.analyzeFiles paths).violations := by
    rw [violations_analyzeFiles, violations_analyzeFiles]
    symm
    apply (ranking_of_cmp Violation.order).mergeSort_flatMap_perm hperm.symm
    apply hpaths.imp
    intro a b hab v hv w hw
    rw [Bool.eq_false_iff]
    intro htied
    have hsame := Violation.components_of_tied htied
    rw [file_of_mem_violationsOf hlocal hv, file_of_mem_violationsOf hlocal hw] at hsame
    exact hab hsame
  have hfailures : (p.analyzeFiles others).failures = (p.analyzeFiles paths).failures := by
    rw [failures_analyzeFiles, failures_analyzeFiles]
    symm
    apply (ranking_of_cmp FileFailure.order).mergeSort_flatMap_perm hperm.symm
    apply hpaths.imp
    intro a b hab f hf g hg
    rw [Bool.eq_false_iff]
    intro htied
    have hsame := FileFailure.components_of_tied htied
    rw [file_of_mem_failure? (Option.mem_toList.1 hf), file_of_mem_failure? (Option.mem_toList.1 hg)] at hsame
    exact hab hsame
  have hchecked : (p.analyzeFiles others).filesChecked = (p.analyzeFiles paths).filesChecked := by
    rw [filesChecked_analyzeFiles, filesChecked_analyzeFiles, hperm.countP_eq]
  exact Report.ext hviolations hchecked hfailures

/-- A failure is listed under the path of its file, and nothing else is listed there. -/
theorem filter_failures (hpaths : p.Distinct paths) (hpath : path ∈ paths) :
    ((p.analyzeFiles paths).failures.filter fun f => f.file.components = (p.relative path).components) =
      (p.failure? path).toList := by
  have hgone : ∀ qs : List Path, (∀ q ∈ qs, (p.relative q).components ≠ (p.relative path).components) →
      ((qs.flatMap fun q => (p.failure? q).toList).filter
        fun f => f.file.components = (p.relative path).components) = [] := by
    intro qs hqs
    apply List.filter_eq_nil_iff.2
    intro f hf
    obtain ⟨q, hq, hf⟩ := List.mem_flatMap.1 hf
    rw [file_of_mem_failure? (Option.mem_toList.1 hf)]
    simpa using hqs q hq
  have hown : ((p.failure? path).toList.filter fun f => f.file.components = (p.relative path).components) =
      (p.failure? path).toList := by
    apply List.filter_eq_self.2
    intro f hf
    rw [file_of_mem_failure? (Option.mem_toList.1 hf)]
    simp
  obtain ⟨before, after, rfl⟩ := List.append_of_mem hpath
  obtain ⟨-, hafter, hbefore⟩ := List.pairwise_append.1 hpaths
  have hb := hgone before fun q hq => hbefore q hq path (by simp)
  have ha := hgone after fun q hq => ((List.pairwise_cons.1 hafter).1 q hq).symm
  rw [failures_analyzeFiles, (ranking_of_cmp FileFailure.order).filter_mergeSort, List.flatMap_append,
    List.flatMap_cons, List.filter_append, List.filter_append, hb, ha, hown]
  cases p.failure? path <;> simp

theorem exists_of_mem_failures {f : FileFailure} (hf : f ∈ (p.analyzeFiles paths).failures) :
    ∃ path ∈ paths, p.failure? path = some f := by
  rw [failures_analyzeFiles, List.mem_mergeSort, List.mem_flatMap] at hf
  obtain ⟨path, hpath, hf⟩ := hf
  exact ⟨path, hpath, Option.mem_toList.1 hf⟩

/-- Of the violations of a run, none is owed to a file that is not checked. -/
theorem violations_eq_sorted_checked (p : Project) (paths : List Path) :
    (p.analyzeFiles paths).violations = Violation.sorted ((paths.filter p.isChecked).flatMap p.violationsOf) := by
  rw [violations_analyzeFiles]
  congr 1
  induction paths with
  | nil => rfl
  | cons path paths ih =>
    cases hc : p.isChecked path with
    | true => rw [List.filter_cons_of_pos hc, List.flatMap_cons, List.flatMap_cons, ih]
    | false =>
      rw [List.filter_cons_of_neg (by simp [hc]), List.flatMap_cons, violationsOf_of_not_isChecked hc, ih,
        List.nil_append]

/-- A failing file changes nothing but the failures. -/
theorem analyzeFiles_insert_failing (h : p.isChecked path = false) (before after : List Path) :
    { p.analyzeFiles (before ++ path :: after) with failures := (p.analyzeFiles (before ++ after)).failures } =
      p.analyzeFiles (before ++ after) := by
  apply Report.ext
  · show (p.analyzeFiles (before ++ path :: after)).violations = (p.analyzeFiles (before ++ after)).violations
    rw [violations_analyzeFiles, violations_analyzeFiles, List.flatMap_append, List.flatMap_append, List.flatMap_cons,
      violationsOf_of_not_isChecked h, List.nil_append]
  · show (p.analyzeFiles (before ++ path :: after)).filesChecked = (p.analyzeFiles (before ++ after)).filesChecked
    rw [filesChecked_analyzeFiles, filesChecked_analyzeFiles, List.countP_append, List.countP_append,
      List.countP_cons_of_neg (by simp [h])]
  · rfl

end Project

/-- Of files that are reported under different paths, each is checked or has the one failure under its path.  The
checked ones are those whose text is read and has violations, be it none, and alone each of them gives just these; the
violations of the run are those of the checked files, sorted.  The order of the files does not matter, and a failing
file, added or left out, changes nothing but the failures. -/
theorem analyzeFiles_accounts {p : Project} (hlocal : p.rules.Local) {paths : List Path} (hpaths : p.Distinct paths) :
    (p.analyzeFiles paths).filesChecked + (p.analyzeFiles paths).failures.length = paths.length ∧
    (∀ path ∈ paths, ((p.analyzeFiles paths).failures.filter
      fun f => f.file.components = (p.relative path).components) = (p.failure? path).toList) ∧
    (∀ f ∈ (p.analyzeFiles paths).failures, ∃ path ∈ paths, p.failure? path = some f) ∧
    (∀ path vs, p.Gives path vs ↔ p.isChecked path = true ∧ p.violationsOf path = vs) ∧
    (∀ path, (p.analyzeFiles [path]).violations = p.violationsOf path) ∧
    (p.analyzeFiles paths).violations = Violation.sorted ((paths.filter p.isChecked).flatMap p.violationsOf) ∧
    (p.analyzeFiles paths).violations.Perm ((paths.filter p.isChecked).flatMap p.violationsOf) ∧
    ((p.analyzeFiles paths).violations.Pairwise fun v w => (Violation.order v w).isLE = true) ∧
    (∀ others, others.Perm paths → p.analyzeFiles others = p.analyzeFiles paths) ∧
    ∀ before path after, paths = before ++ path :: after → p.isChecked path = false →
      { p.analyzeFiles paths with failures := (p.analyzeFiles (before ++ after)).failures } =
        p.analyzeFiles (before ++ after) := by
  have hviolations := p.violations_eq_sorted_checked paths
  refine ⟨p.filesChecked_add_length_failures paths, fun path hpath => Project.filter_failures hpaths hpath,
    fun f hf => Project.exists_of_mem_failures hf, p.gives_iff, p.violations_analyzeFiles_singleton, hviolations,
    hviolations ▸ Violation.sorted_perm _, hviolations ▸ Violation.pairwise_sorted _,
    fun others hperm => Project.analyzeFiles_perm hlocal hpaths hperm, ?_⟩
  intro before path after hsplit hfails
  rw [hsplit]
  exact Project.analyzeFiles_insert_failing hfails before after

/-- A file in which a comment is left open. -/
def FileView.leftOpen : FileView := .mk (.ofString "b.js") (.ofSource "/** A.".toList)

/-- A project with this file only. -/
def Project.oneFile : Project where
  tree := ⟨[(["b.js".toList], .file "/** A.".toUTF8)], []⟩
  root := .ofString "/"
  config := {}
  rules := RuleSet.standardRules
  exclude := []

/-- Of a file with an open comment and a missing one, both violations of the first and the failure of the second are
reported. -/
theorem analyzeFiles_accounts_of_missing :
    Project.oneFile.rules.Local ∧ Project.oneFile.Distinct [.ofString "/b.js", .ofString "/a.js"] ∧
    Project.oneFile.isChecked (.ofString "/b.js") = true ∧ Project.oneFile.isChecked (.ofString "/a.js") = false ∧
    (Project.oneFile.analyzeFiles [.ofString "/b.js", .ofString "/a.js"]).filesChecked +
      (Project.oneFile.analyzeFiles [.ofString "/b.js", .ofString "/a.js"]).failures.length = 2 ∧
    ((Project.oneFile.analyzeFiles [.ofString "/b.js", .ofString "/a.js"]).failures.filter
      fun f => f.file.components = (Project.oneFile.relative (.ofString "/a.js")).components) =
        [⟨.ofString "a.js", "IO error: No such file or directory (os error 2)"⟩] ∧
    ((Project.oneFile.analyzeFiles [.ofString "/b.js", .ofString "/a.js"]).violations.map
      fun v => (v.code, v.location)) =
        [("YD000", ⟨.ofString "b.js", 1, 1, 0, 3⟩), ("YD007", ⟨.ofString "b.js", 1, 1, 0, 3⟩)] ∧
    Project.oneFile.analyzeFiles [.ofString "/a.js", .ofString "/b.js"] =
      Project.oneFile.analyzeFiles [.ofString "/b.js", .ofString "/a.js"] := by
  have hlocal : Project.oneFile.rules.Local := RuleSet.local_ofConfig RuleSet.standard_eq
  have hpaths : Project.oneFile.Distinct [.ofString "/b.js", .ofString "/a.js"] := by
    simp only [Project.Distinct]
    decide
  have hchecked : Project.oneFile.isChecked (.ofString "/b.js") = true := by decide +kernel
  have hfails : Project.oneFile.isChecked (.ofString "/a.js") = false := by decide +kernel
  have hkept : [.ofString "/b.js", .ofString "/a.js"].filter Project.oneFile.isChecked = [.ofString "/b.js"] := by
    decide +kernel
  obtain ⟨hcount, hfailures, -, hgives, -, hviolations, -, -, hperm, -⟩ := analyzeFiles_accounts hlocal hpaths
  -- What is found is in order already, so that sorting can be left out where the listing is computed.
  have horder : (FileView.leftOpen.found {} RuleSet.standardRules).Pairwise
      fun a b => (Violation.order a b).isLE := by
    decide +kernel
  have hlisted : Violation.sorted (FileView.leftOpen.found {} RuleSet.standardRules) =
      FileView.leftOpen.found {} RuleSet.standardRules :=
    List.mergeSort_of_pairwise horder
  have halone : Project.oneFile.Gives (.ofString "/b.js") (FileView.leftOpen.found {} RuleSet.standardRules) :=
    ⟨.javaScript, "/** A.", rfl, by decide +kernel, congrArg Except.ok hlisted⟩
  refine ⟨hlocal, hpaths, hchecked, hfails, hcount, ?_, ?_, hperm _ (.swap _ _ _)⟩
  · rw [hfailures (.ofString "/a.js") (by simp)]
    decide +kernel
  · rw [hviolations, hkept, List.flatMap_singleton, ((hgives _ _).1 halone).2, hlisted]
    decide +kernel

end DocLint
