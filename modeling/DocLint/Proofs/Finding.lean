import DocLint.Proofs.Run
import DocLint.RuleSet

/-!
# What a message tells

A violation is listed by its message, so a message has to tell all else that its rule reports: the arguments, the
suggestion and the severity.  Messages of tag rules are templates that are filled in, and their arguments can be
read back, because the first one never has a blank in it.
-/
namespace DocLint

open DocLint.Text

namespace Message

variable {t : List Char}

theorem fill_append_of_notMem (h : '%' ∉ t) (u : List Char) (args : List (List Char)) :
    fill (t ++ u) args = t ++ fill u args := by
  apply fill_append
  rintro x c y rfl ⟨v, hv⟩
  have hc : c = '%' := (List.cons.inj hv).1.symm
  exact h (by simp [hc])

theorem fill_of_notMem (h : '%' ∉ t) (args : List (List Char)) : fill t args = t := by
  have := fill_append_of_notMem h [] args
  simpa [fill] using this

/-- The text before the first place, the argument, and the rest. -/
theorem fill_place_of_notMem (h : '%' ∉ t) (u a : List Char) (args : List (List Char)) :
    fill (t ++ '%' :: 's' :: u) (a :: args) = t ++ (a ++ fill u args) := by
  rw [fill_append_of_notMem h, fill]

/-- The text of a message with one place. -/
theorem toList_render_one {template : String} {before after : List Char}
    (ht : template.toList = before ++ '%' :: 's' :: after) (hb : '%' ∉ before) (ha : '%' ∉ after) (a : String) :
    (render template [a]).toList = before ++ (a.toList ++ after) := by
  rw [toList_render, ht, List.map_cons, List.map_nil, fill_place_of_notMem hb, fill_of_notMem ha]

/-- The text of a message with two places. -/
theorem toList_render_two {template : String} {before middle after : List Char}
    (ht : template.toList = before ++ '%' :: 's' :: (middle ++ '%' :: 's' :: after)) (hb : '%' ∉ before)
    (hm : '%' ∉ middle) (ha : '%' ∉ after) (a b : String) :
    (render template [a, b]).toList = before ++ (a.toList ++ (middle ++ (b.toList ++ after))) := by
  rw [toList_render, ht, List.map_cons, List.map_cons, List.map_nil, fill_place_of_notMem hb,
    fill_place_of_notMem hm, fill_of_notMem ha]

/-- Between the same texts, equal messages have equal arguments. -/
theorem eq_of_append_eq {before after : List Char} {a b : String}
    (h : before ++ (a.toList ++ after) = before ++ (b.toList ++ after)) : a = b :=
  String.toList_inj.1 (List.append_cancel_right (List.append_cancel_left h))

end Message

/-- A tag name has no blank in it. -/
theorem TagName.not_isBlank_of_mem (n : TagName) {c : Char} (hc : c ∈ n.text.toList) : isBlank c = false := by
  have hv := n.valid
  unfold isTagName at hv
  split at hv
  · next d ds ht =>
    rw [ht] at hc
    simp only [List.any_cons, Bool.not_eq_true', Bool.or_eq_false_iff] at hv
    rcases List.mem_cons.1 hc with rfl | hc
    · decide
    · rcases List.mem_cons.1 hc with rfl | hc
      · exact hv.1
      · exact Bool.eq_false_iff.2 (List.any_eq_false.1 hv.2 c hc)
  · cases hv

/-- A word and a blank, before anything: the word can be read back. -/
theorem TagName.eq_of_append_eq {m n : TagName} {c d : Char} {s t : List Char} (hc : isBlank c = true)
    (hd : isBlank d = true) (h : m.text.toList ++ c :: s = n.text.toList ++ d :: t) :
    m.text = n.text ∧ c :: s = d :: t := by
  have hm := takeWhile_append_of_stops (p := fun c => !isBlank c) (a := m.text.toList) (b := c :: s)
    (fun e he => by simp [m.not_isBlank_of_mem he]) (by simp [hc])
  have hn := takeWhile_append_of_stops (p := fun c => !isBlank c) (a := n.text.toList) (b := d :: t)
    (fun e he => by simp [n.not_isBlank_of_mem he]) (by simp [hd])
  rw [h, hn] at hm
  refine ⟨String.toList_inj.1 hm.symm, ?_⟩
  rw [hm] at h
  exact List.append_cancel_left h

/-! ## Tags -/

namespace TagRule.Finding

open Message (toList_render_one toList_render_two)

theorem toList_message_missingTag (tag : TagName) : (missingTag tag).message.toList =
    "Missing required tag ".toList ++ (tag.text.toList ++ ".".toList) :=
  toList_render_one (show "Missing required tag %s.".toList = _ by decide) (by decide) (by decide) tag.text

theorem toList_message_rivalConflict (group : List TagName) : (rivalConflict group).message.toList =
    "Got several of the rivaling tags ".toList ++ ((TagName.listText group).toList ++
      ". There should be only one.".toList) :=
  toList_render_one
    (show "Got several of the rivaling tags %s. There should be only one.".toList = _ by decide)
    (by decide) (by decide) (TagName.listText group)

theorem toList_message_rivalMissing (group : List TagName) : (rivalMissing group).message.toList =
    "You need at least one of these tags: ".toList ++ ((TagName.listText group).toList ++ ".".toList) :=
  toList_render_one (show "You need at least one of these tags: %s.".toList = _ by decide)
    (by decide) (by decide) (TagName.listText group)

theorem toList_message_anchorOrder (anchor : TagName) (rivals : List TagName) :
    (anchorOrder anchor rivals).message.toList = "The ".toList ++ (anchor.text.toList ++
      (' ' :: "tag should be in front of any ".toList ++ ((TagName.listText rivals).toList ++ " tag.".toList))) :=
  toList_render_two (show "The %s tag should be in front of any %s tag.".toList = _ by decide)
    (by decide) (by decide) (by decide) anchor.text (TagName.listText rivals)

/-- The first letter of a message tells what kind of finding it is about. -/
def initial : Finding → Char
  | missingTag _ => 'M'
  | rivalConflict _ => 'G'
  | rivalMissing _ => 'Y'
  | anchorOrder .. => 'T'

theorem head?_message (f : Finding) : f.message.toList.head? = some f.initial := by
  cases f with
  | missingTag => rw [toList_message_missingTag]; rfl
  | rivalConflict => rw [toList_message_rivalConflict]; rfl
  | rivalMissing => rw [toList_message_rivalMissing]; rfl
  | anchorOrder => rw [toList_message_anchorOrder]; rfl

/-- The message of a finding tells its severity, its arguments and what is suggested. -/
theorem eq_of_message {f g : Finding} (h : f.message = g.message) :
    f.severity = g.severity ∧ f.args = g.args ∧ Rule.tagSuggestion? f = Rule.tagSuggestion? g := by
  have hi : f.initial = g.initial := by
    have := head?_message f
    rw [h, head?_message] at this
    exact (Option.some.inj this).symm
  have ht := congrArg String.toList h
  cases f with
  | missingTag tag =>
    cases g with
    | missingTag tag' =>
      rw [toList_message_missingTag, toList_message_missingTag] at ht
      have := Message.eq_of_append_eq ht
      simp [severity, args, Rule.tagSuggestion?, this]
    | _ => simp [initial] at hi
  | rivalConflict group =>
    cases g with
    | rivalConflict group' =>
      rw [toList_message_rivalConflict, toList_message_rivalConflict] at ht
      have := Message.eq_of_append_eq ht
      simp [severity, args, Rule.tagSuggestion?, this]
    | _ => simp [initial] at hi
  | rivalMissing group =>
    cases g with
    | rivalMissing group' =>
      rw [toList_message_rivalMissing, toList_message_rivalMissing] at ht
      have := Message.eq_of_append_eq ht
      simp [severity, args, Rule.tagSuggestion?, this]
    | _ => simp [initial] at hi
  | anchorOrder anchor rivals =>
    cases g with
    | anchorOrder anchor' rivals' =>
      rw [toList_message_anchorOrder, toList_message_anchorOrder] at ht
      obtain ⟨hanchor, htail⟩ := TagName.eq_of_append_eq (by decide) (by decide) (List.append_cancel_left ht)
      have hrivals := Message.eq_of_append_eq (List.cons.inj htail).2
      simp [severity, args, Rule.tagSuggestion?, hanchor, hrivals]
    | _ => simp [initial] at hi

end TagRule.Finding

/-! ## Layout -/

namespace Spacing

theorem mem_proseGaps {b : Block} {ps : List Prose} {f : Finding} (h : f ∈ proseGaps b ps) : f = .proseGap := by
  fun_induction proseGaps b ps with
  | case1 p q rest ih =>
    rcases List.mem_append.1 h with h | h
    · split at h <;> simp_all
    · exact ih h
  | case2 => cases h

/-- What can be found in a block: the distance of the tags is measured once. -/
theorem mem_check {policy : Policy} {b : Block} {f : Finding} (h : f ∈ check policy b) :
    f = .noProse ∨ f = .proseGap ∨ ∃ last tag, b.prose.getLast? = some last ∧ b.tags.head? = some tag ∧
      f ∈ tagSeparation policy (b.marksBetween last.pos tag.pos) := by
  unfold check at h
  split at h
  · split at h
    · exact .inl (List.mem_singleton.1 h)
    · cases h
  · next last hl =>
    rcases List.mem_append.1 h with h | h
    · split at h
      · exact .inr (.inl (mem_proseGaps h))
      · cases h
    · split at h
      · cases h
      · next tag tags ht => exact .inr (.inr ⟨last, tag, hl, by rw [ht]; rfl, h⟩)

theorem mem_tagSeparation {policy : Policy} {marks : Nat} {f : Finding} (h : f ∈ tagSeparation policy marks) :
    f = .tagSeparation marks (if marks < expectedMarks then policy.missingBlank else policy.extraBlank) := by
  unfold tagSeparation at h
  split at h
  · cases h
  · exact List.mem_singleton.1 h

/-- Findings in one block that say the same are the same. -/
theorem eq_of_message {policy : Policy} {b : Block} {f g : Finding} (hf : f ∈ check policy b)
    (hg : g ∈ check policy b) (h : f.message = g.message) : f = g := by
  have hne : ∀ marks severity, (Finding.tagSeparation marks severity).message ≠ Finding.noProse.message ∧
      (Finding.tagSeparation marks severity).message ≠ Finding.proseGap.message :=
    fun _ _ => (by decide : (Finding.tagSeparation 0 .error).message ≠ Finding.noProse.message ∧
      (Finding.tagSeparation 0 .error).message ≠ Finding.proseGap.message)
  rcases mem_check hf with rfl | rfl | ⟨last, tag, hl, ht, hf⟩
  · rcases mem_check hg with rfl | rfl | ⟨_, _, -, -, hg⟩
    · rfl
    · exact absurd h (by decide)
    · rw [mem_tagSeparation hg] at h
      exact absurd h.symm (hne _ _).1
  · rcases mem_check hg with rfl | rfl | ⟨_, _, -, -, hg⟩
    · exact absurd h (by decide)
    · rfl
    · rw [mem_tagSeparation hg] at h
      exact absurd h.symm (hne _ _).2
  · rcases mem_check hg with rfl | rfl | ⟨last', tag', hl', ht', hg⟩
    · rw [mem_tagSeparation hf] at h
      exact absurd h (hne _ _).1
    · rw [mem_tagSeparation hf] at h
      exact absurd h (hne _ _).2
    · obtain rfl := Option.some.inj (hl.symm.trans hl')
      obtain rfl := Option.some.inj (ht.symm.trans ht')
      rw [mem_tagSeparation hf, mem_tagSeparation hg]

end Spacing

/-! ## Rules -/

/-- What a rule reports of a block has the rule's code and the block's place, and the message tells the rest. -/
structure BlockRule.Telling (r : BlockRule) : Prop where
  stamped : ∀ view, ∀ v ∈ r.check view, v.code = r.code ∧ v.location = view.location
  told : ∀ view, ∀ v ∈ r.check view, ∀ w ∈ r.check view, v.message = w.message → v = w

namespace Rule

theorem telling_headerTags (scope : Scope) (rule : TagRule) : (headerTags scope rule).Telling where
  stamped view v hv := by
    simp only [headerTags] at hv
    split at hv
    · obtain ⟨f, -, rfl⟩ := List.mem_map.1 hv
      exact ⟨rfl, rfl⟩
    · cases hv
  told view v hv w hw h := by
    simp only [headerTags] at hv hw
    split at hv
    · next ha =>
      rw [if_pos ha] at hw
      obtain ⟨f, -, rfl⟩ := List.mem_map.1 hv
      obtain ⟨g, -, rfl⟩ := List.mem_map.1 hw
      obtain ⟨hseverity, hargs, hsuggestion⟩ := TagRule.Finding.eq_of_message h
      simp only [RuleInfo.templated, RuleInfo.violation, Violation.mk.injEq, true_and]
      exact ⟨hseverity, h, hargs, hsuggestion⟩
    · cases hv

theorem stamped_spacingViolations {info : RuleInfo} {policy : Spacing.Policy} {view : BlockView} {v : Violation}
    (h : v ∈ spacingViolations info policy view) : v.code = info.code ∧ v.location = view.location := by
  obtain ⟨f, -, rfl⟩ := List.mem_map.1 h
  exact ⟨rfl, rfl⟩

theorem told_spacingViolations {info : RuleInfo} {policy : Spacing.Policy} {view : BlockView} {v w : Violation}
    (hv : v ∈ spacingViolations info policy view) (hw : w ∈ spacingViolations info policy view)
    (h : v.message = w.message) : v = w := by
  obtain ⟨f, hf, rfl⟩ := List.mem_map.1 hv
  obtain ⟨g, hg, rfl⟩ := List.mem_map.1 hw
  rw [Spacing.eq_of_message hf hg h]

theorem telling_blockSpacing : blockSpacing.Telling where
  stamped _ _ hv := stamped_spacingViolations hv
  told _ _ hv _ hw h := told_spacingViolations hv hw h

theorem telling_headerSpacing : headerSpacing.Telling where
  stamped view v hv := by
    simp only [headerSpacing] at hv
    split at hv
    · exact stamped_spacingViolations hv
    · cases hv
  told view v hv w hw h := by
    simp only [headerSpacing] at hv hw
    split at hv
    · next hr =>
      rw [hr] at hw
      exact told_spacingViolations hv hw h
    · cases hv

theorem telling_paramCount : paramCount.Telling where
  stamped view v hv := by
    simp only [paramCount] at hv
    split at hv
    · split at hv
      · cases hv
      · obtain rfl := List.mem_singleton.1 hv
        exact ⟨rfl, rfl⟩
    · cases hv
  told view v hv w hw _ := by
    simp only [paramCount] at hv hw
    split at hv
    · next hr =>
      rw [hr] at hw
      split at hv
      · cases hv
      · next hne =>
        simp only [if_neg hne] at hw
        rw [List.mem_singleton.1 hv, List.mem_singleton.1 hw]
    · cases hv

/-- A file without a module is reported once, at its first token. -/
theorem eq_of_mem_modulePresence {f : FileView} {bs : List Block} {v : Violation}
    (h : v ∈ modulePresence.check f bs) :
    v = { modulePresenceInfo.violation .error (f.location 0)
        "The @module tag seems to be missing. It is needed at least once." with
      suggestion := some "Add a @module tag to the file header" } := by
  simp only [modulePresence] at h
  split at h
  · cases h
  · exact List.mem_singleton.1 h

end Rule

namespace RuleSet

theorem tagRule_eq_ok {scope : Scope} {options : TagOptions} {r : BlockRule} :
    tagRule scope options = .ok r ↔ ∃ rule, TagRule.build options = .ok rule ∧ r = Rule.headerTags scope rule := by
  unfold tagRule
  cases TagRule.build options <;> simp [eq_comm]

/-- The rules of a configuration: a tag rule for each scope, then those that are switched on. -/
theorem exists_of_ofConfig {c : Config} {rules : RuleSet} (h : ofConfig c = .ok rules) :
    ∃ a b d, TagRule.build (c.tags.classHeader.getD .classPreset) = .ok a ∧
      TagRule.build (c.tags.functionHeader.getD .functionPreset) = .ok b ∧
      c.tags.anyBlock.mapM (tagRule .anyBlock) = .ok d ∧
      rules.blockRules = [Rule.headerTags .classHeader a, Rule.headerTags .functionHeader b] ++ d.toList ++
        (if c.checks.blockSpacing then [Rule.blockSpacing] else []) ++
        (if c.checks.headerSpacing then [Rule.headerSpacing] else []) ++
        (if c.checks.paramCount then [Rule.paramCount] else []) ∧
      rules.fileRules = if c.checks.requireModule then [Rule.modulePresence] else [] := by
  unfold ofConfig at h
  cases hx : tagRule .classHeader (c.tags.classHeader.getD .classPreset) with
  | error e => rw [hx] at h; cases h
  | ok x =>
  cases hy : tagRule .functionHeader (c.tags.functionHeader.getD .functionPreset) with
  | error e => rw [hx, hy] at h; cases h
  | ok y =>
  cases hd : c.tags.anyBlock.mapM (tagRule .anyBlock) with
  | error e => rw [hx, hy, hd] at h; cases h
  | ok d =>
    rw [hx, hy, hd] at h
    obtain ⟨a, ha, rfl⟩ := tagRule_eq_ok.1 hx
    obtain ⟨b, hb, rfl⟩ := tagRule_eq_ok.1 hy
    cases h
    exact ⟨a, b, d, ha, hb, rfl, rfl, rfl⟩

/-- A tag rule that may be configured for every block is one for every block. -/
theorem exists_of_mapM_tagRule {o : Option TagOptions} {d : Option BlockRule}
    (hd : o.mapM (tagRule .anyBlock) = .ok d) : ∀ r ∈ d, ∃ rule, r = Rule.headerTags .anyBlock rule := by
  intro r hr
  obtain rfl : d = some r := hr
  cases o with
  | none => cases hd
  | some o =>
    rw [Option.mapM_some] at hd
    cases hr : tagRule .anyBlock o with
    | error e => rw [hr] at hd; cases hd
    | ok x =>
      rw [hr] at hd
      cases hd
      obtain ⟨rule, -, rfl⟩ := tagRule_eq_ok.1 hr
      exact ⟨rule, rfl⟩

/-- What a rule of a configuration can be. -/
theorem mem_blockRules_ofConfig {c : Config} {rules : RuleSet} (h : ofConfig c = .ok rules) {r : BlockRule}
    (hr : r ∈ rules.blockRules) :
    (∃ scope rule, r = Rule.headerTags scope rule) ∨ r = Rule.blockSpacing ∨ r = Rule.headerSpacing ∨
      r = Rule.paramCount := by
  obtain ⟨a, b, d, -, -, hd, hblock, -⟩ := exists_of_ofConfig h
  rw [hblock] at hr
  simp only [List.mem_append, List.mem_cons, List.not_mem_nil, or_false, Option.mem_toList] at hr
  have one : ∀ {p : Bool} {x : BlockRule}, r ∈ (if p then [x] else []) → r = x := by
    intro p x hx
    cases p <;> simp_all
  rcases hr with ((((rfl | rfl) | hr) | hr) | hr) | hr
  · exact .inl ⟨_, _, rfl⟩
  · exact .inl ⟨_, _, rfl⟩
  · obtain ⟨rule, rfl⟩ := exists_of_mapM_tagRule hd r hr
    exact .inl ⟨_, _, rfl⟩
  · exact .inr (.inl (one hr))
  · exact .inr (.inr (.inl (one hr)))
  · exact .inr (.inr (.inr (one hr)))

/-- A rule set in which a code names one rule, and each rule is telling. -/
structure Telling (rules : RuleSet) : Prop where
  told : ∀ r ∈ rules.blockRules, r.Telling
  codes : (rules.blockRules.map fun r => r.code).Sublist ["YD001", "YD002", "YD003", "YD004", "YD005", "YD006"]
  files : rules.fileRules.Sublist [Rule.modulePresence]

/-- The codes of unclosed comments and of the file rule are no codes of block rules. -/
theorem Telling.code_ne {rules : RuleSet} (h : rules.Telling) {r : BlockRule} (hr : r ∈ rules.blockRules) :
    r.code ≠ "YD000" ∧ r.code ≠ "YD007" := by
  have listed : ∀ code ∈ ["YD001", "YD002", "YD003", "YD004", "YD005", "YD006"],
      code ≠ "YD000" ∧ code ≠ "YD007" := by decide
  exact listed r.code (h.codes.subset (List.mem_map_of_mem hr))

theorem telling_ofConfig {c : Config} {rules : RuleSet} (h : ofConfig c = .ok rules) : rules.Telling := by
  obtain ⟨a, b, d, -, -, hd, hblock, hfile⟩ := exists_of_ofConfig h
  have hd := exists_of_mapM_tagRule hd
  refine ⟨fun r hr => ?_, ?_, ?_⟩
  · rcases mem_blockRules_ofConfig h hr with ⟨scope, rule, rfl⟩ | rfl | rfl | rfl
    · exact Rule.telling_headerTags scope rule
    · exact Rule.telling_blockSpacing
    · exact Rule.telling_headerSpacing
    · exact Rule.telling_paramCount
  · have one : ∀ (p : Bool) (x : BlockRule), List.Sublist ((if p then [x] else []).map fun r => r.code) [x.code] := by
      intro p x
      cases p <;> simp
    have hd : List.Sublist (d.toList.map fun r => r.code) ["YD003"] := by
      cases d with
      | none => simp
      | some r =>
        obtain ⟨rule, rfl⟩ := hd r rfl
        exact .refl _
    rw [hblock]
    simp only [List.map_append]
    exact ((((List.Sublist.refl ["YD001", "YD002"]).append hd).append (one _ Rule.blockSpacing)).append
      (one _ Rule.headerSpacing)).append (one _ Rule.paramCount)
  · rw [hfile]
    split
    · exact .refl _
    · exact List.nil_sublist _

/-- The tag rule of class headers in a project that configures nothing. -/
def classRule : TagRule where
  required := [⟨"@class", by decide⟩]
  rivaling := [[⟨"@constructor", by decide⟩, ⟨"@static", by decide⟩]]
  relevant := ["@class", "@constructor", "@extends", "@namespace", "@static"]
  rivalingMandatory := true
  anchor := some ⟨"@class", by decide⟩

/-- The tag rule of function headers in a project that configures nothing. -/
def functionRule : TagRule where
  required := [⟨"@method", by decide⟩, ⟨"@return", by decide⟩]
  rivaling := []
  relevant := ["@method", "@param", "@return"]
  rivalingMandatory := false
  anchor := none

def standardRules : RuleSet where
  blockRules := [Rule.headerTags .classHeader classRule, Rule.headerTags .functionHeader functionRule,
    Rule.blockSpacing, Rule.headerSpacing, Rule.paramCount]
  fileRules := [Rule.modulePresence]

theorem standard_eq : standard = .ok standardRules := rfl

end RuleSet

end DocLint
