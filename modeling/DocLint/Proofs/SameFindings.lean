import DocLint.Proofs.Landmark
import DocLint.Proofs.Schedule

/-!
# Findings by comment

Everything but the missing module is found at some comment.  What is found at a comment depends on what the comment
documents and on what it says, and is reported where it opens; whether a module is missing depends on what the comments
say.  So scripts with the same landmarks have the same report, up to byte offsets.
-/
namespace DocLint

/-- A violation without the byte at which it stands. -/
def Violation.withoutOffset (v : Violation) : Violation := v.at { v.location with offset := 0 }

/-- Two reports that differ in byte offsets only, and in where a missing module is reported. -/
structure SameReport (vs ws : List Violation) : Prop where
  missing : (∃ v ∈ vs, v.code = "YD007") ↔ ∃ w ∈ ws, w.code = "YD007"
  others : (vs.filter (·.code != "YD007")).map Violation.withoutOffset =
    (ws.filter (·.code != "YD007")).map Violation.withoutOffset

/-- Lists whose members are alike, one by one, have the same image. -/
theorem map_eq_map_of_like {α β γ δ : Type} {xs : List α} {ys : List β} {u : α → γ} {v : β → γ} {s : α → δ} {t : β → δ}
    (h : xs.map u = ys.map v) (hst : ∀ x ∈ xs, ∀ y ∈ ys, u x = v y → s x = t y) : xs.map s = ys.map t := by
  induction xs generalizing ys with
  | nil =>
    rw [List.map_nil, eq_comm, List.map_eq_nil_iff] at h
    rw [h]
    rfl
  | cons x xs ih =>
    obtain ⟨y, ys, rfl, hy, hys⟩ := List.map_eq_cons_iff.1 h.symm
    rw [List.map_cons, List.map_cons, hst x (by simp) y (by simp) hy.symm, ih hys.symm ?_]
    intro x hx y hy
    exact hst x (List.mem_cons_of_mem _ hx) y (List.mem_cons_of_mem _ hy)

namespace FileView

variable {f g : FileView} {c : Config} {rules : RuleSet} {v : Violation} {o p : Nat}

/-- What is found at the comment that opens at `o`. -/
def findingsAt (f : FileView) (c : Config) (rules : RuleSet) (o : Nat) : List Violation :=
  match Block.extract f.stream o with
  | .ok b => f.blockViolations c rules b
  | .error _ => c.adjust unclosedInfo [f.unclosedViolation o]

def commentFindings (f : FileView) (c : Config) (rules : RuleSet) : List Violation :=
  f.stream.openers.flatMap (f.findingsAt c rules)

theorem location_of_mem_findingsAt (h : rules.Telling) (hv : v ∈ f.findingsAt c rules o) :
    v.location = f.location o := by
  unfold findingsAt at hv
  split at hv
  · next b hb =>
    obtain ⟨r, hr, hv⟩ := List.mem_flatMap.1 hv
    obtain ⟨u, hu, rfl⟩ := exists_of_mem_adjust hv
    rw [← Block.opener_of_extract hb]
    exact ((h.told r hr).stamped _ u hu).2
  · obtain ⟨u, hu, rfl⟩ := exists_of_mem_adjust hv
    rw [List.mem_singleton.1 hu]
    rfl

theorem code_of_mem_blockViolations (h : rules.Telling) {b : Block} (hv : v ∈ f.blockViolations c rules b) :
    v.code ≠ "YD000" ∧ v.code ≠ "YD007" := by
  obtain ⟨r, hr, hv⟩ := List.mem_flatMap.1 hv
  obtain ⟨u, hu, rfl⟩ := exists_of_mem_adjust hv
  have hne := h.code_ne hr
  rw [← ((h.told r hr).stamped _ u hu).1] at hne
  exact hne

theorem code_of_mem_unclosed (hv : v ∈ c.adjust unclosedInfo [f.unclosedViolation o]) : v.code = "YD000" := by
  obtain ⟨u, hu, rfl⟩ := exists_of_mem_adjust hv
  rw [List.mem_singleton.1 hu]
  rfl

theorem code_of_mem_findingsAt (h : rules.Telling) (hv : v ∈ f.findingsAt c rules o) : v.code ≠ "YD007" := by
  unfold findingsAt at hv
  split at hv
  · exact (code_of_mem_blockViolations h hv).2
  · rw [code_of_mem_unclosed hv]
    decide

theorem code_of_mem_fileViolations (h : rules.Telling) (hv : v ∈ f.fileViolations c rules) : v.code = "YD007" := by
  obtain ⟨r, hr, hv⟩ := List.mem_flatMap.1 hv
  obtain rfl := List.mem_singleton.1 (h.files.subset hr)
  obtain ⟨u, hu, rfl⟩ := exists_of_mem_adjust hv
  simp only [Rule.modulePresence] at hu
  split at hu
  · cases hu
  · rw [List.mem_singleton.1 hu]
    rfl

/-- Comment by comment, the same is found as by unclosed comments first and then by blocks. -/
theorem found_perm (f : FileView) (c : Config) (rules : RuleSet) :
    (f.found c rules).Perm (f.commentFindings c rules ++ f.fileViolations c rules) := by
  refine .append_right _ ?_
  unfold unclosed blocks commentFindings
  induction f.stream.openers with
  | nil => exact .refl _
  | cons o os ih =>
    rw [List.filter_cons, List.filterMap_cons, List.flatMap_cons, findingsAt]
    cases he : Block.extract f.stream o with
    | ok b =>
      simp only [Bool.false_eq_true, if_false, Except.toOption, List.flatMap_cons]
      exact (List.perm_append_comm_assoc _ _ _).trans (ih.append_left _)
    | error e =>
      simp only [if_true, Except.toOption, List.flatMap_cons, List.append_assoc]
      exact ih.append_left _

theorem unclosedViolation_mem_analyze {f : FileView} (rules : RuleSet) {o : Nat} (h : o ∈ f.unclosed) :
    f.unclosedViolation o ∈ f.analyze {} rules := by
  have hfound : f.unclosedViolation o ∈ f.unclosed.flatMap fun o =>
      Config.adjust {} unclosedInfo [f.unclosedViolation o] :=
    List.mem_flatMap.2 ⟨o, h, List.mem_singleton_self _⟩
  apply (Violation.sorted_perm _).mem_iff.2
  rw [found, List.append_assoc]
  exact List.mem_append_left _ hfound

theorem filter_found (h : rules.Telling) :
    ((f.found c rules).filter (·.code != "YD007")).Perm (f.commentFindings c rules) := by
  have hcomments : ∀ v ∈ f.commentFindings c rules, (v.code != "YD007") = true := by
    intro v hv
    obtain ⟨o, -, hv⟩ := List.mem_flatMap.1 hv
    simpa using code_of_mem_findingsAt h hv
  have hfile : ∀ v ∈ f.fileViolations c rules, ¬ (v.code != "YD007") = true := by
    intro v hv
    simp [code_of_mem_fileViolations h hv]
  have hperm := (f.found_perm c rules).filter (·.code != "YD007")
  rwa [List.filter_append, List.filter_eq_self.2 hcomments, List.filter_eq_nil_iff.2 hfile, List.append_nil] at hperm

/-! ## Comments that are alike -/

/-- What is found at a comment is found at every comment that documents the same and says the same. -/
theorem findingsAt_like (hblind : ∀ r ∈ rules.blockRules, r.Blind) (hs : (f.site o).subject = (g.site p).subject)
    (hc : (f.site o).contents = (g.site p).contents) :
    g.findingsAt c rules p = (f.findingsAt c rules o).map (·.at (g.location p)) := by
  simp only [site] at hs hc
  unfold findingsAt
  cases ho : Block.extract f.stream o with
  | ok b =>
    cases hp : Block.extract g.stream p with
    | ok b' =>
      rw [ho, hp] at hc
      have hlike : (f.blockView b).Like (g.blockView b') := by
        refine ⟨?_, Option.some.inj hc, Block.exists_ordered_of_extract ho, Block.exists_ordered_of_extract hp⟩
        rw [blockView, blockView, Block.opener_of_extract ho, Block.opener_of_extract hp]
        exact hs
      simp only [blockViolations_like hblind hlike, Block.opener_of_extract hp]
    | error e =>
      rw [ho, hp] at hc
      cases hc
  | error e =>
    cases hp : Block.extract g.stream p with
    | ok b' =>
      rw [ho, hp] at hc
      cases hc
    | error e' => exact c.adjust_map_at unclosedInfo [f.unclosedViolation o] (g.location p)

theorem file_location (f : FileView) (o : Nat) : (f.location o).file = f.path := by
  unfold location Location.ofToken?
  split <;> rfl

theorem location_withoutOffset (hp : f.path = g.path) (hs : f.site o = g.site p) :
    { f.location o with offset := 0 } = { g.location p with offset := 0 } := by
  simp only [site, Site.mk.injEq] at hs
  simp only [file_location, hp, hs.1, hs.2.1, hs.2.2.1]

/-- Of comments that are alike, the same is reported, if only what `e` leaves of a location counts. -/
theorem map_at_findingsAt (ht : rules.Telling) (hblind : ∀ r ∈ rules.blockRules, r.Blind) {e : Location → Location}
    (he : e (f.location o) = e (g.location p)) (hs : (f.site o).subject = (g.site p).subject)
    (hc : (f.site o).contents = (g.site p).contents) :
    (f.findingsAt c rules o).map (fun v => v.at (e v.location)) =
      (g.findingsAt c rules p).map fun v => v.at (e v.location) := by
  rw [findingsAt_like hblind hs hc, List.map_map]
  refine List.map_congr_left fun v hv => ?_
  rw [location_of_mem_findingsAt ht hv, he]
  rfl

theorem map_withoutOffset_commentFindings (ht : rules.Telling) (hblind : ∀ r ∈ rules.blockRules, r.Blind)
    (hs : f.sites = g.sites) (hp : f.path = g.path) :
    (f.commentFindings c rules).map Violation.withoutOffset =
      (g.commentFindings c rules).map Violation.withoutOffset := by
  rw [commentFindings, commentFindings, List.map_flatMap, List.map_flatMap, List.flatMap_def, List.flatMap_def]
  refine congrArg List.flatten (map_eq_map_of_like hs fun o _ p _ hop => ?_)
  exact map_at_findingsAt (e := fun l => { l with offset := 0 }) ht hblind (location_withoutOffset hp hop)
    (congrArg Site.subject hop) (congrArg Site.contents hop)

/-! ## The module of a file -/

/-- Some comment names a module. -/
def namesModule (ss : List Site) : Bool :=
  ss.any fun s => s.contents.any fun c => c.tags.any fun t => t.name == "@module"

theorem any_hasTag_blocks (f : FileView) : (f.blocks.any fun b => b.hasTag "@module") = namesModule f.sites := by
  unfold blocks namesModule sites
  induction f.stream.openers with
  | nil => rfl
  | cons o os ih =>
    rw [List.map_cons, List.any_cons, ← ih, List.filterMap_cons]
    cases he : Block.extract f.stream o with
    | ok b => simp [site, he, Except.toOption, Block.hasTag, Block.contents, Function.comp_def]
    | error e => simp [site, he, Except.toOption]

theorem fileViolations_like (ht : rules.Telling) (hs : namesModule f.sites = namesModule g.sites) :
    g.fileViolations c rules = (f.fileViolations c rules).map (·.at (g.location 0)) := by
  unfold fileViolations
  rw [List.map_flatMap]
  refine List.flatMap_congr fun r hr => ?_
  obtain rfl := List.mem_singleton.1 (ht.files.subset hr)
  rw [← c.adjust_map_at]
  congr 1
  simp only [Rule.modulePresence, any_hasTag_blocks, hs]
  split <;> rfl

theorem exists_missing_iff (ht : rules.Telling) :
    (∃ v ∈ f.analyze c rules, v.code = "YD007") ↔ f.fileViolations c rules ≠ [] := by
  constructor
  · rintro ⟨v, hv, hcode⟩ hnil
    have hmem := (f.found_perm c rules).mem_iff.1 ((Violation.sorted_perm _).mem_iff.1 hv)
    rw [hnil, List.append_nil] at hmem
    obtain ⟨o, -, hmem⟩ := List.mem_flatMap.1 hmem
    exact code_of_mem_findingsAt ht hmem hcode
  · intro hne
    obtain ⟨v, hv⟩ := List.exists_mem_of_ne_nil _ hne
    refine ⟨v, ?_, code_of_mem_fileViolations ht hv⟩
    exact (Violation.sorted_perm _).mem_iff.2 (List.mem_append_right _ hv)

end FileView

/-- Scripts with the same landmarks have the same report. -/
theorem sameReport_of_landmarks {c : Config} {rules : RuleSet} (h : RuleSet.ofConfig c = .ok rules) (path : Path)
    {source source' : List Char} (hl : landmarksOf source = landmarksOf source') :
    SameReport (analyzeScript c rules path source) (analyzeScript c rules path source') := by
  have ht := RuleSet.telling_ofConfig h
  have hblind : ∀ r ∈ rules.blockRules, r.Blind := fun r hr => RuleSet.blind_ofConfig h hr
  have hsites : (FileView.mk path (.ofSource source)).sites = (FileView.mk path (.ofSource source')).sites := by
    rw [FileView.sites_ofSource, FileView.sites_ofSource, hl]
  constructor
  · rw [analyzeScript, analyzeScript, FileView.exists_missing_iff ht, FileView.exists_missing_iff ht,
      FileView.fileViolations_like ht (congrArg FileView.namesModule hsites), ne_eq, ne_eq, List.map_eq_nil_iff]
  · have listed : ∀ source,
        ((analyzeScript c rules path source).filter (·.code != "YD007")).map Violation.withoutOffset =
          Violation.sorted
            (((FileView.mk path (.ofSource source)).commentFindings c rules).map Violation.withoutOffset) := by
      intro source
      have hcomments := (FileView.keyed_found (c := c) ht path source).filter_sorted (FileView.filter_found ht)
      rw [analyzeScript, FileView.analyze, hcomments]
      exact Violation.map_sorted fun _ _ _ _ => rfl
    rw [listed source, listed source', FileView.map_withoutOffset_commentFindings ht hblind hsites rfl]

end DocLint
