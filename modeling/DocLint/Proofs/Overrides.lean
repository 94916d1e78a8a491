import DocLint.Proofs.Schedule
import DocLint.Proofs.Stability

/-!
# Rule entries as revisions

A configuration may switch a rule off and change the severity of what it finds, by an entry for its name or its code.
Every violation bears the name and the code of the rule that found it, so the entries can as well be read afterwards:
a table of entries revises the listing of a run without any, violation by violation.
-/
namespace DocLint

/-! ## Who found a violation -/

/-- A violation bears the name and the code of a rule. -/
def RuleInfo.Signs (r : RuleInfo) (v : Violation) : Prop := v.rule = r.name ∧ v.code = r.code

/-- Every rule signs what it finds. -/
structure RuleSet.Signed (rules : RuleSet) : Prop where
  blocks : ∀ r ∈ rules.blockRules, ∀ view, ∀ v ∈ r.check view, r.Signs v
  files : ∀ r ∈ rules.fileRules, ∀ f bs, ∀ v ∈ r.check f bs, r.Signs v

namespace Rule

variable {view : BlockView} {v : Violation}

theorem signs_headerTags {scope : Scope} {rule : TagRule} (h : v ∈ (headerTags scope rule).check view) :
    (headerTags scope rule).Signs v := by
  simp only [headerTags] at h
  split at h
  · obtain ⟨f, -, rfl⟩ := List.mem_map.1 h
    exact ⟨rfl, rfl⟩
  · cases h

theorem signs_spacing {info : RuleInfo} {policy : Spacing.Policy} (h : v ∈ spacingViolations info policy view) :
    info.Signs v := by
  obtain ⟨f, -, rfl⟩ := List.mem_map.1 h
  exact ⟨rfl, rfl⟩

theorem signs_headerSpacing (h : v ∈ headerSpacing.check view) : headerSpacing.Signs v := by
  simp only [headerSpacing] at h
  split at h
  · exact signs_spacing h
  · cases h

theorem signs_paramCount (h : v ∈ paramCount.check view) : paramCount.Signs v := by
  simp only [paramCount] at h
  split at h
  · split at h
    · cases h
    · rw [List.mem_singleton.1 h]
      exact ⟨rfl, rfl⟩
  · cases h

theorem signs_modulePresence {f : FileView} {bs : List Block} (h : v ∈ modulePresence.check f bs) :
    modulePresence.Signs v := by
  rw [eq_of_mem_modulePresence h]
  exact ⟨rfl, rfl⟩

end Rule

theorem RuleSet.signed_ofConfig {c : Config} {rules : RuleSet} (h : RuleSet.ofConfig c = .ok rules) : rules.Signed where
  blocks r hr view v hv := by
    rcases RuleSet.mem_blockRules_ofConfig h hr with ⟨scope, rule, rfl⟩ | rfl | rfl | rfl
    · exact Rule.signs_headerTags hv
    · exact Rule.signs_spacing hv
    · exact Rule.signs_headerSpacing hv
    · exact Rule.signs_paramCount hv
  files r hr f bs v hv := by
    obtain rfl := List.mem_singleton.1 ((RuleSet.telling_ofConfig h).files.subset hr)
    exact Rule.signs_modulePresence hv

theorem FileView.signs_unclosedViolation (f : FileView) (o : Nat) : unclosedInfo.Signs (f.unclosedViolation o) :=
  ⟨rfl, rfl⟩

/-! ## Reading the entries afterwards -/

namespace Violation

/-- The entry of a table for a violation: that of its rule's name, and only without one that of its code. -/
def entry? (table : List (String × RuleConfig)) (v : Violation) : Option RuleConfig :=
  match table.lookup v.rule with
  | some entry => some entry
  | none => table.lookup v.code

/-- What a table makes of a violation: nothing if its entry disables it, else the violation with the severity of the
entry, if the entry has one. -/
def revise (table : List (String × RuleConfig)) (v : Violation) : Option Violation :=
  match v.entry? table with
  | none => some v
  | some entry =>
    if entry.enabled = some false then none else some { v with severity := entry.severity.getD v.severity }

/-- A revision leaves everything but the severity. -/
theorem exists_of_revise {table : List (String × RuleConfig)} {v w : Violation} (h : v.revise table = some w) :
    ∃ severity, w = { v with severity } := by
  unfold revise at h
  split at h
  · exact ⟨v.severity, (Option.some.inj h).symm⟩
  · split at h
    · cases h
    · exact ⟨_, (Option.some.inj h).symm⟩

/-- A listing is revised in its order. -/
theorem filterMap_revise_sorted (table : List (String × RuleConfig)) (vs : List Violation) :
    (sorted vs).filterMap (revise table) = sorted (vs.filterMap (revise table)) := by
  apply (ranking_of_cmp order).filterMap_mergeSort
  intro a _ b _ a' ha b' hb
  obtain ⟨_, rfl⟩ := exists_of_revise ha
  obtain ⟨_, rfl⟩ := exists_of_revise hb
  rfl

end Violation

theorem RuleInfo.Signs.entry?_eq {r : RuleInfo} {v : Violation} (h : r.Signs v) (c : Config) :
    v.entry? c.rules = c.rule? r.name r.code := by
  rw [Violation.entry?, Config.rule?, h.1, h.2]
  cases c.rules.lookup r.name <;> rfl

/-- What a configuration makes of a rule's findings is what its table makes of each of them. -/
theorem Config.adjust_eq_filterMap (c : Config) {r : RuleInfo} {vs : List Violation} (h : ∀ v ∈ vs, r.Signs v) :
    c.adjust r vs = vs.filterMap (Violation.revise c.rules) := by
  unfold Config.adjust Config.isEnabled Config.severity?
  cases he : c.rule? r.name r.code with
  | none =>
    have hkept : ∀ v ∈ vs, v.revise c.rules = some v := by
      intro v hv
      rw [Violation.revise, (h v hv).entry?_eq c, he]
    rw [List.filterMap_congr hkept, List.filterMap_some]
    rfl
  | some entry =>
    have hrevised : ∀ v ∈ vs, v.revise c.rules =
        if entry.enabled = some false then none else some { v with severity := entry.severity.getD v.severity } := by
      intro v hv
      rw [Violation.revise, (h v hv).entry?_eq c, he]
    rw [List.filterMap_congr hrevised]
    obtain ⟨enabled, severity⟩ := entry
    cases enabled with
    | none => cases severity <;> simp [List.filterMap_eq_map']
    | some enabled => cases enabled <;> cases severity <;> simp

/-- With an empty table nothing is revised. -/
theorem Config.adjust_of_rules_nil (c : Config) (h : c.rules = []) (r : RuleInfo) (vs : List Violation) :
    c.adjust r vs = vs := by
  simp [Config.adjust, Config.isEnabled, Config.severity?, Config.rule?, h]

namespace FileView

variable {f : FileView} {c c' : Config} {rules rules' : RuleSet}

/-- A run finds what is left of the findings of another run, if that holds of unclosed comments, of every block and of
the file rules. -/
theorem found_eq_filterMap {g : Violation → Option Violation}
    (hunclosed : ∀ o, c'.adjust unclosedInfo [f.unclosedViolation o] =
      (c.adjust unclosedInfo [f.unclosedViolation o]).filterMap g)
    (hblocks : ∀ b, f.blockViolations c' rules' b = (f.blockViolations c rules b).filterMap g)
    (hfiles : f.fileViolations c' rules' = (f.fileViolations c rules).filterMap g) :
    f.found c' rules' = (f.found c rules).filterMap g := by
  rw [found, found, List.filterMap_append, List.filterMap_append, List.filterMap_flatMap, List.filterMap_flatMap,
    funext hunclosed, funext hblocks, hfiles]

/-- What is found under a table is what is found without one, revised. -/
theorem found_eq_revised (h : rules.Signed) (f : FileView) (c : Config) (table : List (String × RuleConfig)) :
    f.found { c with rules := table } rules =
      (f.found { c with rules := [] } rules).filterMap (Violation.revise table) := by
  have hrevised : ∀ (r : RuleInfo) (vs : List Violation), (∀ v ∈ vs, r.Signs v) →
      Config.adjust { c with rules := table } r vs =
        (Config.adjust { c with rules := [] } r vs).filterMap (Violation.revise table) := by
    intro r vs hvs
    rw [Config.adjust_eq_filterMap _ hvs, Config.adjust_of_rules_nil _ rfl]
  apply found_eq_filterMap
  · intro o
    apply hrevised
    intro v hv
    rw [List.mem_singleton.1 hv]
    exact f.signs_unclosedViolation o
  · intro b
    rw [blockViolations, blockViolations, List.filterMap_flatMap]
    apply List.flatMap_congr
    intro r hr
    exact hrevised _ _ (h.blocks r hr (f.blockView b))
  · rw [fileViolations, fileViolations, List.filterMap_flatMap]
    apply List.flatMap_congr
    intro r hr
    exact hrevised _ _ (h.files r hr f f.blocks)

end FileView

/-- Whatever the stream of a file and its index, the listing of a run under a table of entries is the listing of a run
under none, revised violation by violation. -/
theorem analyze_eq_revised {built : Config} {rules : RuleSet} (h : RuleSet.ofConfig built = .ok rules) (f : FileView)
    (c : Config) (table : List (String × RuleConfig)) :
    f.analyze { c with rules := table } rules =
      (f.analyze { c with rules := [] } rules).filterMap (Violation.revise table) := by
  rw [FileView.analyze, FileView.analyze, Violation.filterMap_revise_sorted,
    FileView.found_eq_revised (RuleSet.signed_ofConfig h)]

/-- An entry for the name of a rule hides one for its code: the unclosed comment is kept, as a warning. -/
theorem analyze_eq_revised_name_over_code :
    RuleSet.ofConfig {} = .ok RuleSet.standardRules ∧
    (FileView.mk (.ofString "a.js") (.ofSource "/** a".toList)).analyze
        { rules := [("YD000", { enabled := some false }), ("malformed-comment", { severity := some .warning })] }
        RuleSet.standardRules =
      ((FileView.mk (.ofString "a.js") (.ofSource "/** a".toList)).analyze {} RuleSet.standardRules).filterMap
        (Violation.revise
          [("YD000", { enabled := some false }), ("malformed-comment", { severity := some .warning })]) ∧
    Violation.revise [("YD000", { enabled := some false }), ("malformed-comment", { severity := some .warning })]
        ((FileView.mk (.ofString "a.js") (.ofSource "/** a".toList)).unclosedViolation 0) =
      some { (FileView.mk (.ofString "a.js") (.ofSource "/** a".toList)).unclosedViolation 0 with
        severity := .warning } := by
  have h : RuleSet.ofConfig {} = .ok RuleSet.standardRules := RuleSet.standard_eq
  exact ⟨h, analyze_eq_revised h _ {} _, rfl⟩

end DocLint
