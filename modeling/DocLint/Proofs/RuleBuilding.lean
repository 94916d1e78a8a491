import DocLint.RuleSet
import DocLint.Proofs.TagReading

/-!
# Which tag rules can be built

A rule is built from options that are given step by step.  Building looks at one thing after another and stops at the
first that offends; `TagOptions.checks` lists these things in their order, so that the outcome is the first offence in
that list.  Without an offence the rule holds the options in a normal form, from which it can be built again.
-/
namespace DocLint

open TagRule (distinct checkName checkRole checkGroups insertName build BuiltFrom)

/-! ## Failing computations -/

section Failing

variable {ε α β : Type}

/-- Why a computation fails, if it does. -/
def error? : Except ε α → Option ε
  | .error e => some e
  | .ok _ => none

theorem error?_eq_some_iff {x : Except ε α} {e : ε} : error? x = some e ↔ x = .error e := by
  cases x <;> simp [error?]

theorem error?_eq_none_iff {x : Except ε α} : error? x = none ↔ ∃ a, x = .ok a := by
  cases x <;> simp [error?]

/-- The second of two computations matters only if the first one succeeds. -/
theorem error?_bind {x : Except ε α} {f : α → Except ε β} {later : Option ε}
    (h : ∀ a, x = .ok a → error? (f a) = later) : error? (x >>= f) = (error? x).or later := by
  cases x with
  | error e => rfl
  | ok a => exact h a rfl

/-- A second computation that always succeeds does not matter. -/
theorem error?_bind_ok {x : Except ε α} {f : α → Except ε β} (h : ∀ a, error? (f a) = none) :
    error? (x >>= f) = error? x := by
  rw [error?_bind fun a _ => h a, Option.or_none]

theorem error?_mapM (f : α → Except ε β) (xs : List α) : error? (xs.mapM f) = xs.findSome? fun x => error? (f x) := by
  induction xs with
  | nil => rfl
  | cons x xs ih =>
    have hcons : (x :: xs).findSome? (fun x => error? (f x)) = (error? (f x)).or (error? (xs.mapM f)) := by
      rw [List.findSome?_cons, ih]
      cases error? (f x) <;> rfl
    rw [List.mapM_cons, hcons]
    exact error?_bind fun y _ => error?_bind_ok fun ys => rfl

theorem error?_option_mapM (f : α → Except ε β) (o : Option α) :
    error? (o.mapM f) = o.toList.findSome? fun x => error? (f x) := by
  cases o with
  | none => rfl
  | some x =>
    rw [Option.mapM_some, Option.toList_some, List.findSome?_singleton]
    cases f x <;> rfl

end Failing

/-! ## Options given step by step -/

namespace TagSetting

def requiredTags : TagSetting → List String
  | .required tags => tags
  | _ => []

def relevantTags : TagSetting → List String
  | .relevant tags => tags
  | _ => []

def group? : TagSetting → Option (List String)
  | .rivaling group => some group
  | _ => none

def mandatory? : TagSetting → Option Bool
  | .rivalingMandatory mandatory => some mandatory
  | _ => none

def anchor? : TagSetting → Option String
  | .anchor tag => some tag
  | _ => none

end TagSetting

namespace TagOptions

/-- Tags and groups are gathered in the order in which they are given; of the rest, the last one counts. -/
theorem ofSettings_eq (settings : List TagSetting) : ofSettings settings =
    { required := settings.flatMap TagSetting.requiredTags
      rivaling := settings.filterMap TagSetting.group?
      relevant := settings.flatMap TagSetting.relevantTags
      rivalingMandatory := (settings.filterMap TagSetting.mandatory?).getLast?.getD false
      anchor := (settings.filterMap TagSetting.anchor?).getLast? } := by
  induction settings using List.reverseRecOn with
  | nil => rfl
  | append_singleton settings s ih =>
    have hstep : ofSettings (settings ++ [s]) = (ofSettings settings).set s := by
      rw [ofSettings, List.foldl_append]
      rfl
    rw [hstep, ih]
    cases s <;> simp [set, TagSetting.requiredTags, TagSetting.relevantTags, TagSetting.group?, TagSetting.mandatory?,
      TagSetting.anchor?]

/-- The steps of a table give the table. -/
theorem ofSettings_settings (o : TagOptions) : ofSettings o.settings = o := by
  have hgroups : ∀ (o : TagOptions) groups, (groups.map TagSetting.rivaling).foldl set o =
      { o with rivaling := o.rivaling ++ groups } := by
    intro o groups
    induction groups generalizing o with
    | nil => simp
    | cons group groups ih =>
      rw [List.map_cons, List.foldl_cons, ih]
      simp [set]
  obtain ⟨required, rivaling, relevant, mandatory, anchor⟩ := o
  cases anchor <;> simp [ofSettings, settings, set, hgroups]

/-! ## Offences -/

/-- The tags that options name in any role. -/
def named (o : TagOptions) : List String := o.required ++ o.rivaling.flatten ++ o.anchor.toList

/-- Every name is a tag name, every group has a member, and every tag that is named is relevant. -/
structure Valid (o : TagOptions) : Prop where
  names : ∀ name ∈ o.relevant ++ o.named, isTagName name.toList = true
  filled : ∀ group ∈ o.rivaling, group ≠ []
  listed : ∀ name ∈ o.named, name ∈ o.relevant

end TagOptions

/-- What is looked at when a rule is built. -/
inductive TagCheck where
  | vocabulary (name : String)
  | role (role : TagRole) (name : String)
  | group (index : Nat) (members : List String)
  deriving DecidableEq, Repr

namespace TagCheck

/-- What is wrong with a thing, given the relevant tags. -/
def offence? (relevant : List String) : TagCheck → Option TagRuleError
  | vocabulary name => if isTagName name.toList then none else some (.invalidTagName name)
  | role r name =>
    if !isTagName name.toList then some (.invalidTagName name)
    else if name ∉ relevant then some (.notRelevant r name)
    else none
  | group index members => if members = [] then some (.emptyRivalGroup index) else none

/-- The members of a group one by one, then the group. -/
def ofGroup (index : Nat) (members : List String) : List TagCheck :=
  members.map (role .rivaling) ++ [group index members]

end TagCheck

namespace TagOptions

/-- Everything that is looked at, in order. -/
def checks (o : TagOptions) : List TagCheck :=
  o.relevant.map .vocabulary ++ (o.required.map (.role .required) ++
    (o.rivaling.zipIdx.flatMap (fun g => TagCheck.ofGroup g.2 g.1) ++ o.anchor.toList.map (.role .anchor)))

/-- The first offence. -/
def offence? (o : TagOptions) : Option TagRuleError := o.checks.findSome? (TagCheck.offence? o.relevant)

end TagOptions

namespace TagCheck

variable {relevant : List String} {name : String}

theorem offence?_vocabulary_eq_none_iff :
    (vocabulary name).offence? relevant = none ↔ isTagName name.toList = true := by
  simp [offence?]

theorem offence?_role_eq_none_iff {r : TagRole} :
    (role r name).offence? relevant = none ↔ isTagName name.toList = true ∧ name ∈ relevant := by
  cases h : isTagName name.toList <;> simp [offence?, h]

theorem offence?_group_eq_none_iff {index : Nat} {members : List String} :
    (group index members).offence? relevant = none ↔ members ≠ [] := by
  simp [offence?]

end TagCheck

namespace TagOptions

variable {o : TagOptions}

/-- Options without an offence are the valid ones. -/
theorem offence?_eq_none_iff : o.offence? = none ↔ o.Valid := by
  simp only [offence?, checks, List.findSome?_eq_none_iff, List.forall_mem_append, List.forall_mem_map,
    TagCheck.offence?_vocabulary_eq_none_iff, TagCheck.offence?_role_eq_none_iff]
  constructor
  · rintro ⟨hrelevant, hrequired, hgroups, hanchor⟩
    have hgroup : ∀ group ∈ o.rivaling, group ≠ [] ∧
        ∀ name ∈ group, isTagName name.toList = true ∧ name ∈ o.relevant := by
      intro group hg
      obtain ⟨i, hi⟩ := List.getElem?_of_mem hg
      have hindex : (group, i) ∈ o.rivaling.zipIdx := List.mem_zipIdx_iff_getElem?.2 hi
      have hall := fun check hc => hgroups check (List.mem_flatMap.2 ⟨(group, i), hindex, hc⟩)
      rw [TagCheck.ofGroup, List.forall_mem_append, List.forall_mem_map, List.forall_mem_singleton] at hall
      exact ⟨TagCheck.offence?_group_eq_none_iff.1 hall.2,
        fun name hn => TagCheck.offence?_role_eq_none_iff.1 (hall.1 name hn)⟩
    have hnamed : ∀ name ∈ o.named, isTagName name.toList = true ∧ name ∈ o.relevant := by
      simp only [named, List.forall_mem_append]
      refine ⟨⟨hrequired, fun name hn => ?_⟩, hanchor⟩
      obtain ⟨group, hg, hn⟩ := List.mem_flatten.1 hn
      exact (hgroup group hg).2 name hn
    refine ⟨?_, fun group hg => (hgroup group hg).1, fun name hn => (hnamed name hn).2⟩
    rw [List.forall_mem_append]
    exact ⟨hrelevant, fun name hn => (hnamed name hn).1⟩
  · intro h
    obtain ⟨hrelevant, hnames⟩ := List.forall_mem_append.1 h.names
    have hnamed : ∀ name ∈ o.named, isTagName name.toList = true ∧ name ∈ o.relevant :=
      fun name hn => ⟨hnames name hn, h.listed name hn⟩
    simp only [named, List.forall_mem_append] at hnamed
    refine ⟨hrelevant, hnamed.1.1, fun check hc => ?_, hnamed.2⟩
    obtain ⟨⟨group, i⟩, hg, hc⟩ := List.mem_flatMap.1 hc
    have hg : group ∈ o.rivaling := List.mem_of_getElem? (List.mem_zipIdx_iff_getElem?.1 hg)
    rcases List.mem_append.1 hc with hc | hc
    · obtain ⟨name, hn, rfl⟩ := List.mem_map.1 hc
      exact TagCheck.offence?_role_eq_none_iff.2 (hnamed.1.2 name (List.mem_flatten.2 ⟨group, hg, hn⟩))
    · rw [List.mem_singleton.1 hc]
      exact TagCheck.offence?_group_eq_none_iff.2 (h.filled group hg)

end TagOptions

/-! ## Building finds the first offence -/

namespace TagRule

theorem error?_checkName (relevant : List String) (name : String) :
    error? (checkName name) = (TagCheck.vocabulary name).offence? relevant := by
  cases h : isTagName name.toList <;> simp [checkName, TagName.ofText?, TagCheck.offence?, h, error?]

section Relevant

variable {known relevant : List String} (hknown : ∀ name, name ∈ known ↔ name ∈ relevant)
include hknown

theorem error?_checkRole (role : TagRole) (name : String) :
    error? (checkRole known role name) = (TagCheck.role role name).offence? relevant := by
  have hlisted : ∀ tag, error? (if known.contains name then .ok tag else .error (.notRelevant role name) :
      Except TagRuleError TagName) = if name ∉ relevant then some (.notRelevant role name) else none := by
    intro tag
    by_cases h : name ∈ relevant <;> simp [h, hknown, error?]
  rw [checkRole, error?_bind fun tag _ => hlisted tag, error?_checkName relevant]
  cases h : isTagName name.toList <;> simp [TagCheck.offence?, h]

theorem error?_mapM_checkRole (role : TagRole) (names : List String) :
    error? (names.mapM (checkRole known role)) =
      (names.map (TagCheck.role role)).findSome? (TagCheck.offence? relevant) := by
  simp only [error?_mapM, error?_checkRole hknown, List.findSome?_map, Function.comp_def]

theorem error?_checkGroups (index : Nat) (groups : List (List String)) :
    error? (checkGroups known index groups) =
      ((groups.zipIdx index).flatMap fun g => TagCheck.ofGroup g.2 g.1).findSome? (TagCheck.offence? relevant) := by
  induction groups generalizing index with
  | nil => rfl
  | cons group groups ih =>
    rw [checkGroups, List.zipIdx_cons, List.flatMap_cons, List.findSome?_append, TagCheck.ofGroup,
      List.findSome?_append, Option.or_assoc, ← error?_mapM_checkRole hknown]
    refine error?_bind fun members hmembers => ?_
    -- A group is empty if there is nothing in it that was checked.
    have hempty : members = [] ↔ group = [] := by
      rw [← (map_text_of_mapM text_of_checkRole hmembers).1, List.map_eq_nil_iff]
    by_cases hg : group = []
    · simp [hempty.2 hg, hg, TagCheck.offence?, error?]
    · have hm : ¬ members.isEmpty = true := by simpa [hempty] using hg
      rw [if_neg hm, error?_bind_ok fun rest => rfl, ih]
      simp [hg, TagCheck.offence?]

end Relevant

/-- Building stops at the first offence. -/
theorem error?_build (o : TagOptions) : error? (build o) = o.offence? := by
  have hvocabulary : error? (o.relevant.mapM checkName) =
      (o.relevant.map TagCheck.vocabulary).findSome? (TagCheck.offence? o.relevant) := by
    simp only [error?_mapM, error?_checkName o.relevant, List.findSome?_map, Function.comp_def]
  rw [build, TagOptions.offence?, TagOptions.checks, List.findSome?_append, ← hvocabulary]
  refine error?_bind fun names hnames => ?_
  have hknown : ∀ name, name ∈ names.foldl (fun ns n => insertName n.text ns) [] ↔ name ∈ o.relevant := by
    intro name
    rw [mem_foldl_insertName, (map_text_of_mapM text_of_checkName hnames).1]
    simp
  rw [List.findSome?_append, ← error?_mapM_checkRole hknown]
  refine error?_bind fun required _ => ?_
  rw [List.findSome?_append, ← error?_checkGroups hknown]
  refine error?_bind fun rivaling _ => ?_
  rw [error?_bind_ok fun anchor => rfl]
  simp only [error?_option_mapM, error?_checkRole hknown, List.findSome?_map, Function.comp_def]

theorem build_eq_error_iff {o : TagOptions} {e : TagRuleError} : build o = .error e ↔ o.offence? = some e := by
  rw [← error?_build, error?_eq_some_iff]

theorem exists_build_iff {o : TagOptions} : (∃ r, build o = .ok r) ↔ o.Valid := by
  rw [← error?_eq_none_iff, error?_build, TagOptions.offence?_eq_none_iff]

/-! ## The normal form -/

/-- Each name once, in order. -/
def Ascending (names : List String) : Prop := names.Pairwise fun m n => compare m n = .lt

theorem Ascending.insertName {names : List String} (h : Ascending names) (name : String) :
    Ascending (insertName name names) := by
  fun_induction TagRule.insertName name names with
  | case1 => exact List.pairwise_singleton _ _
  | case2 n ns hlt =>
    refine List.pairwise_cons.2 ⟨fun m hm => ?_, h⟩
    rcases List.mem_cons.1 hm with rfl | hm
    · exact hlt
    · exact Std.TransCmp.lt_trans hlt ((List.pairwise_cons.1 h).1 m hm)
  | case3 n ns heq => exact h
  | case4 n ns hgt ih =>
    obtain ⟨hn, hns⟩ := List.pairwise_cons.1 h
    refine List.pairwise_cons.2 ⟨fun m hm => ?_, ih hns⟩
    rcases mem_insertName.1 hm with rfl | hm
    · exact Std.OrientedCmp.lt_of_gt hgt
    · exact hn m hm

theorem Ascending.foldl_insertName {names : List String} (h : Ascending names) (tags : List TagName) :
    Ascending (tags.foldl (fun ns n => TagRule.insertName n.text ns) names) := by
  induction tags generalizing names with
  | nil => exact h
  | cons t tags ih => exact ih (h.insertName t.text)

theorem Ascending.nodup {names : List String} (h : Ascending names) : names.Nodup := by
  refine h.imp fun {m n} hlt heq => ?_
  rw [heq, Std.ReflOrd.compare_self] at hlt
  cases hlt

/-- Names in order are known by which names they are. -/
theorem Ascending.eq_of_mem_iff {ms ns : List String} (hm : Ascending ms) (hn : Ascending ns)
    (h : ∀ name, name ∈ ms ↔ name ∈ ns) : ms = ns := by
  refine ((List.perm_ext_iff_of_nodup hm.nodup hn.nodup).2 h).eq_of_pairwise (fun a b _ _ hab hba => ?_) hm hn
  rw [Std.OrientedCmp.gt_of_lt hab] at hba
  cases hba

theorem ascending_of_build {o : TagOptions} {r : TagRule} (h : build o = .ok r) : Ascending r.relevant := by
  obtain ⟨names, -, h⟩ := bind_eq_ok h
  obtain ⟨required, -, h⟩ := bind_eq_ok h
  obtain ⟨rivaling, -, h⟩ := bind_eq_ok h
  obtain ⟨anchor, -, h⟩ := bind_eq_ok h
  cases h
  exact Ascending.foldl_insertName List.Pairwise.nil names

/-- `kept` holds the names of `given`, each once, in the order in which they are mentioned first. -/
structure FirstMentions (given kept : List String) : Prop where
  nodup : kept.Nodup
  mem : ∀ name, name ∈ kept ↔ name ∈ given
  order : ∀ m n, kept.idxOf m < kept.idxOf n ↔ given.idxOf m < given.idxOf n

theorem firstMentions_distinct (given : List String) : FirstMentions given (distinct given) :=
  ⟨nodup_distinct given, fun _ => mem_distinct, fun m n => idxOf_distinct_lt_iff m n given⟩

theorem distinct_of_nodup {names : List String} (h : names.Nodup) : distinct names = names := by
  induction names using List.reverseRecOn with
  | nil => rfl
  | append_singleton names name ih =>
    obtain ⟨hnames, -, hapart⟩ := List.nodup_append.1 h
    have hname : name ∉ names := fun hmem => hapart name hmem name (by simp) rfl
    rw [distinct_concat, ih hnames, if_neg hname]

/-- What a rule makes of its options. -/
structure Normal (r : TagRule) (o : TagOptions) : Prop where
  required : FirstMentions o.required (r.required.map TagName.text)
  rivaling : List.Forall₂ FirstMentions o.rivaling (r.rivaling.map (List.map TagName.text))
  vocabulary : ∀ name, name ∈ r.relevant ↔ name ∈ o.relevant
  ascending : Ascending r.relevant
  mandatory : r.rivalingMandatory = o.rivalingMandatory
  anchor : r.anchor.map TagName.text = o.anchor

theorem normal_of_build {o : TagOptions} {r : TagRule} (h : build o = .ok r) : r.Normal o := by
  have hbuilt := builtFrom_of_build h
  refine ⟨?_, ?_, hbuilt.vocabulary, ascending_of_build h, hbuilt.mandatory, hbuilt.anchor⟩
  · rw [hbuilt.required]
    exact firstMentions_distinct o.required
  · rw [hbuilt.rivaling, List.forall₂_map_right_iff, List.forall₂_same]
    exact fun group _ => firstMentions_distinct group

/-- The options that a rule shows. -/
def options (r : TagRule) : TagOptions where
  required := r.required.map TagName.text
  rivaling := r.rivaling.map (List.map TagName.text)
  relevant := r.relevant
  rivalingMandatory := r.rivalingMandatory
  anchor := r.anchor.map TagName.text

theorem named_options (r : TagRule) : r.options.named = r.named.map TagName.text := by
  cases h : r.anchor <;> simp [TagOptions.named, options, named, h, List.map_flatten]

theorem valid_options {o : TagOptions} {r : TagRule} (h : build o = .ok r) : r.options.Valid := by
  have hbuilt := builtFrom_of_build h
  have hvalid : o.Valid := exists_build_iff.1 ⟨r, h⟩
  refine ⟨?_, fun group hg => ?_, ?_⟩
  · rw [List.forall_mem_append, named_options, List.forall_mem_map]
    refine ⟨fun name hn => hvalid.names name ?_, fun t _ => t.valid⟩
    exact List.mem_append_left _ ((hbuilt.vocabulary name).1 hn)
  · have hmem : group ∈ o.rivaling.map distinct := hbuilt.rivaling ▸ hg
    obtain ⟨names, hnames, rfl⟩ := List.mem_map.1 hmem
    obtain ⟨name, hn⟩ := List.exists_mem_of_ne_nil names (hvalid.filled names hnames)
    exact List.ne_nil_of_mem (mem_distinct.2 hn)
  · rw [named_options, List.forall_mem_map]
    exact hbuilt.relevant

/-- A rule is built again from the options that it shows. -/
theorem build_options {o : TagOptions} {r : TagRule} (h : build o = .ok r) : build r.options = .ok r := by
  have hbuilt := builtFrom_of_build h
  obtain ⟨r', h'⟩ := exists_build_iff.2 (valid_options h)
  have hagain := builtFrom_of_build h'
  have hrequired : r'.required = r.required := by
    have hnodup : (r.required.map TagName.text).Nodup := hbuilt.required ▸ nodup_distinct o.required
    exact List.map_injective_iff.2 TagName.text_injective (hagain.required.trans (distinct_of_nodup hnodup))
  have hrivaling : r'.rivaling = r.rivaling := by
    have hgroups : (r.rivaling.map (List.map TagName.text)).map distinct = r.rivaling.map (List.map TagName.text) := by
      rw [hbuilt.rivaling, List.map_map]
      exact List.map_congr_left fun group _ => distinct_of_nodup (nodup_distinct group)
    refine List.map_injective_iff.2 (List.map_injective_iff.2 TagName.text_injective) ?_
    exact hagain.rivaling.trans hgroups
  have hrelevant : r'.relevant = r.relevant :=
    (ascending_of_build h').eq_of_mem_iff (ascending_of_build h) hagain.vocabulary
  have hanchor : r'.anchor = r.anchor := Option.map_injective TagName.text_injective hagain.anchor
  have hsame : r' = r := by
    obtain ⟨required, rivaling, relevant, mandatory, anchor⟩ := r
    obtain ⟨required', rivaling', relevant', mandatory', anchor'⟩ := r'
    obtain rfl : required' = required := hrequired
    obtain rfl : rivaling' = rivaling := hrivaling
    obtain rfl : relevant' = relevant := hrelevant
    obtain rfl : mandatory' = mandatory := hagain.mandatory
    obtain rfl : anchor' = anchor := hanchor
    rfl
  rw [h', hsame]

end TagRule

/-! ## The rules of a configuration -/

/-- The tag tables of a configuration, each with its scope. -/
def TagsConfig.tables (t : TagsConfig) : List (Scope × TagOptions) :=
  t.classHeader.toList.map (Scope.classHeader, ·) ++
    (t.functionHeader.toList.map (Scope.functionHeader, ·) ++ t.anyBlock.toList.map (Scope.anyBlock, ·))

namespace RuleSet

theorem error?_tagRule (scope : Scope) (o : TagOptions) :
    error? (tagRule scope o) = o.offence?.map (InvalidRule.mk scope) := by
  rw [← TagRule.error?_build, tagRule]
  cases build o <;> rfl

/-- A table that is missing is replaced by one without an offence. -/
theorem error?_tagRule_getD {preset : TagOptions} (hpreset : preset.offence? = none) (scope : Scope)
    (o : Option TagOptions) :
    error? (tagRule scope (o.getD preset)) =
      (o.toList.map (scope, ·)).findSome? fun table => table.2.offence?.map (InvalidRule.mk table.1) := by
  cases o with
  | none => simp [error?_tagRule, hpreset]
  | some o => simp [error?_tagRule]

/-- A configuration is refused for the first of its tables that has an offence. -/
theorem error?_ofConfig (c : Config) : error? (ofConfig c) =
    c.tags.tables.findSome? fun table => table.2.offence?.map (InvalidRule.mk table.1) := by
  have hclass : TagOptions.classPreset.offence? = none := by decide +kernel
  have hfunction : TagOptions.functionPreset.offence? = none := by decide +kernel
  rw [ofConfig, TagsConfig.tables, List.findSome?_append, List.findSome?_append,
    ← error?_tagRule_getD hclass, ← error?_tagRule_getD hfunction]
  refine error?_bind fun classRule _ => error?_bind fun functionRule _ => ?_
  rw [error?_bind_ok fun blockRule => rfl]
  simp only [error?_option_mapM, error?_tagRule, List.findSome?_map, Function.comp_def]

end RuleSet

/-- A configuration is refused exactly if one of its tables is not valid. -/
theorem RuleSet.exists_ofConfig_eq_error_iff {c : Config} :
    (∃ e, ofConfig c = .error e) ↔ ∃ table ∈ c.tags.tables, ¬ table.2.Valid := by
  have hsome : (∃ e, ofConfig c = .error e) ↔ error? (ofConfig c) ≠ none := by
    rw [Option.ne_none_iff_exists']
    exact exists_congr fun e => error?_eq_some_iff.symm
  have hnone : error? (ofConfig c) = none ↔ ∀ table ∈ c.tags.tables, table.2.Valid := by
    simp [error?_ofConfig, List.findSome?_eq_none_iff, TagOptions.offence?_eq_none_iff]
  rw [hsome, ne_eq, hnone]
  push Not
  rfl

/-- A rule is built exactly from valid options, in their normal form, from which it can be built again; otherwise the
first offence is named.  A configuration is refused exactly for the first of its tables that is not valid. -/
theorem build_ofSettings (settings : List TagSetting) :
    (TagOptions.ofSettings settings =
      { required := settings.flatMap TagSetting.requiredTags
        rivaling := settings.filterMap TagSetting.group?
        relevant := settings.flatMap TagSetting.relevantTags
        rivalingMandatory := (settings.filterMap TagSetting.mandatory?).getLast?.getD false
        anchor := (settings.filterMap TagSetting.anchor?).getLast? }) ∧
    ((∃ r, build (.ofSettings settings) = .ok r) ↔ (TagOptions.ofSettings settings).Valid) ∧
    (∀ r, build (.ofSettings settings) = .ok r →
      r.Normal (.ofSettings settings) ∧ build (.ofSettings r.options.settings) = .ok r) ∧
    (∀ e, build (.ofSettings settings) = .error e ↔ (TagOptions.ofSettings settings).offence? = some e) ∧
    (∀ c, (∃ e, RuleSet.ofConfig c = .error e) ↔ ∃ table ∈ c.tags.tables, ¬ table.2.Valid) ∧
    ∀ c e, RuleSet.ofConfig c = .error e ↔
      (c.tags.tables.findSome? fun table => table.2.offence?.map (InvalidRule.mk table.1)) = some e := by
  refine ⟨TagOptions.ofSettings_eq settings, TagRule.exists_build_iff,
    fun r hr => ⟨TagRule.normal_of_build hr, ?_⟩, fun e => TagRule.build_eq_error_iff,
    fun c => RuleSet.exists_ofConfig_eq_error_iff, fun c e => ?_⟩
  · rw [TagOptions.ofSettings_settings]
    exact TagRule.build_options hr
  · rw [← RuleSet.error?_ofConfig, error?_eq_some_iff]

end DocLint
