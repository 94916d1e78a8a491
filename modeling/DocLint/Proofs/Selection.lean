import Mathlib.Data.List.TakeWhile
import DocLint.Command.Check
import DocLint.Proofs.FileReports
import DocLint.Proofs.Overrides
import DocLint.Proofs.Run

/-!
# Runs that are limited to some rules

A filter names rules between commas.  A limited run leaves out the other rules, and by an entry of its own the report on
unclosed comments.  Both come to the same as a choice among all violations: files and failures stay, and of the
violations those stay whose rule is named.
-/
namespace DocLint

namespace Text

/-! ## What a filter names -/

/-- A stretch of a text between two separators, or between one of them and an end of the text. -/
def IsPart (sep : Char) (text part : List Char) : Prop :=
  ∃ before after, text = before ++ part ++ after ∧ sep ∉ part ∧ (∀ c ∈ before.getLast?, c = sep) ∧
    ∀ c ∈ after.head?, c = sep

/-- A text and the same text without the blanks around it. -/
def IsTrimmed (text trimmed : List Char) : Prop :=
  ∃ before after, text = before ++ trimmed ++ after ∧ (∀ c ∈ before ++ after, isBlank c = true) ∧
    (∀ c ∈ trimmed.head?, isBlank c = false) ∧ ∀ c ∈ trimmed.getLast?, isBlank c = false

theorem isPart_of_mem_splitOn {sep : Char} {text part : List Char} (h : part ∈ splitOn sep text) :
    IsPart sep text part := by
  by_cases hsep : sep ∈ text
  · obtain ⟨first, rest, hcut, hfirst⟩ := List.eq_append_cons_of_mem hsep
    have hshorter : rest.length < text.length := by
      rw [hcut, List.length_append, List.length_cons]
      omega
    rw [hcut, splitOn_append hfirst] at h
    cases h with
    | head => exact ⟨[], sep :: rest, by simp [hcut], hfirst, by simp, by simp⟩
    | tail _ h =>
      obtain ⟨before, after, hrest, hpart, hbefore, hafter⟩ := isPart_of_mem_splitOn h
      refine ⟨first ++ sep :: before, after, by simp [hcut, hrest], hpart, ?_, hafter⟩
      cases before with
      | nil => simp
      | cons c before => simpa using hbefore
  · rw [splitOn_of_notMem hsep] at h
    obtain rfl := List.mem_singleton.1 h
    exact ⟨[], [], by simp, hsep, by simp, by simp⟩
termination_by text.length

/-- Cutting at a separator gives the stretches between separators. -/
theorem mem_splitOn {sep : Char} {text part : List Char} : part ∈ splitOn sep text ↔ IsPart sep text part := by
  refine ⟨isPart_of_mem_splitOn, ?_⟩
  rintro ⟨before, after, rfl, hpart, hbefore, hafter⟩
  -- What follows the part is nothing or a separator, and so is what precedes it.
  have hlast : part ∈ splitOn sep (part ++ after) := by
    cases after with
    | nil =>
      rw [List.append_nil, splitOn_of_notMem hpart]
      simp
    | cons c after =>
      obtain rfl := hafter c (by simp)
      rw [splitOn_append hpart]
      simp
  rw [List.append_assoc]
  cases before using List.reverseRecOn with
  | nil => exact hlast
  | append_singleton before c =>
    obtain rfl := hbefore c (by simp)
    rw [List.append_assoc, List.singleton_append, splitOn_append_sep]
    exact List.mem_append_right _ hlast

/-- What ends without a blank is left of a text with blanks after it. -/
theorem trimEnd_append {a b : List Char} (ha : ∀ c ∈ a.getLast?, isBlank c = false) (hb : ∀ c ∈ b, isBlank c = true) :
    trimEnd (a ++ b) = a := by
  have hrun : ∀ c ∈ b.reverse, isBlank c = true := by simpa using hb
  rw [trimEnd, List.reverse_append, List.dropWhile_append_of_pos hrun]
  cases a using List.reverseRecOn with
  | nil => rfl
  | append_singleton a c =>
    have hc : isBlank c = false := ha c (by simp)
    simp [hc]

theorem exists_eq_trimEnd_append (text : List Char) : ∃ after, text = trimEnd text ++ after ∧
    (∀ c ∈ after, isBlank c = true) ∧ ∀ c ∈ (trimEnd text).getLast?, isBlank c = false := by
  refine ⟨(text.reverse.takeWhile isBlank).reverse, ?_, ?_, ?_⟩
  · have hcut := List.takeWhile_append_dropWhile (p := isBlank) (l := text.reverse)
    rw [trimEnd, ← List.reverse_append, hcut, List.reverse_reverse]
  · intro c hc
    exact List.mem_takeWhile_imp (List.mem_reverse.1 hc)
  · rw [trimEnd, List.getLast?_reverse]
    exact stops_dropWhile isBlank text.reverse

theorem isTrimmed_trim (text : List Char) : IsTrimmed text (trim text) := by
  obtain ⟨after, hcut, hafter, hlast⟩ := exists_eq_trimEnd_append (text.dropWhile isBlank)
  refine ⟨text.takeWhile isBlank, after, ?_, ?_, ?_, hlast⟩
  · rw [trim, List.append_assoc, ← hcut, List.takeWhile_append_dropWhile]
  · intro c hc
    cases List.mem_append.1 hc with
    | inl hc => exact List.mem_takeWhile_imp hc
    | inr hc => exact hafter c hc
  · intro c hc
    have hfirst : c ∈ (text.dropWhile isBlank).head? := by
      rw [hcut]
      exact List.mem_head?_append_of_mem_head? hc
    exact stops_dropWhile isBlank text c hfirst

theorem trim_eq_of_isTrimmed {text trimmed : List Char} (h : IsTrimmed text trimmed) : trim text = trimmed := by
  obtain ⟨before, after, rfl, hblank, hhead, hlast⟩ := h
  have hbefore : ∀ c ∈ before, isBlank c = true := fun c hc => hblank c (List.mem_append_left _ hc)
  have hafter : ∀ c ∈ after, isBlank c = true := fun c hc => hblank c (List.mem_append_right _ hc)
  rw [trim, List.append_assoc, List.dropWhile_append_of_pos hbefore]
  cases trimmed with
  | nil =>
    rw [List.nil_append, List.dropWhile_eq_nil_iff.2 hafter]
    rfl
  | cons c cs =>
    have hc : isBlank c = false := hhead c rfl
    rw [List.cons_append, List.dropWhile_cons_of_neg (by simp [hc])]
    exact trimEnd_append hlast hafter

end Text

namespace Check

/-- A filter names what stands between its commas, without blanks around it, if that is anything at all. -/
def Named (filter name : String) : Prop :=
  name ≠ "" ∧ ∃ item, Text.IsPart ',' filter.toList item ∧ Text.IsTrimmed item name.toList

theorem mem_selection {filter name : String} : name ∈ selection filter ↔ Named filter name := by
  simp only [selection, List.mem_map, List.mem_filter, Named]
  constructor
  · rintro ⟨cs, ⟨⟨item, hitem, rfl⟩, hne⟩, rfl⟩
    refine ⟨by simpa using hne, item, Text.mem_splitOn.1 hitem, ?_⟩
    rw [String.toList_ofList]
    exact Text.isTrimmed_trim item
  · rintro ⟨hne, item, hitem, htrim⟩
    refine ⟨name.toList, ⟨⟨item, Text.mem_splitOn.2 hitem, Text.trim_eq_of_isTrimmed htrim⟩, ?_⟩, by simp⟩
    simpa using hne

instance (filter name : String) : Decidable (Named filter name) :=
  decidable_of_iff (name ∈ selection filter) mem_selection

example : Named "YD006 ,, param" "YD006" ∧ ¬ Named "YD006 ,, param" "" := by decide

end Check

/-! ## Entries for other rules -/

namespace Config

variable {c : Config} {name : String} {entry : RuleConfig} {r : RuleInfo}

theorem lookup_filter_ne {table : List (String × RuleConfig)} {key : String} (h : key ≠ name) :
    (table.filter fun e => e.1 != name).lookup key = table.lookup key := by
  induction table with
  | nil => rfl
  | cons e table ih =>
    by_cases he : e.1 = name
    · have hkey : (key == e.1) = false := by simpa [he] using h
      rw [List.filter_cons_of_neg (by simp [he]), ih, List.lookup_cons, hkey]
    · rw [List.filter_cons_of_pos (by simpa using he), List.lookup_cons, List.lookup_cons, ih]

/-- An entry under a name that is neither the name nor the code of a rule does not matter to the rule. -/
theorem adjust_setRule_of_ne (hname : r.name ≠ name) (hcode : r.code ≠ name) (vs : List Violation) :
    (c.setRule name entry).adjust r vs = c.adjust r vs := by
  have hlookup : ∀ key, key ≠ name → (c.setRule name entry).rules.lookup key = c.rules.lookup key := by
    intro key hkey
    have hne : (key == name) = false := by simpa using hkey
    rw [setRule, List.lookup_cons, hne, lookup_filter_ne hkey]
  have hrule : (c.setRule name entry).rule? r.name r.code = c.rule? r.name r.code := by
    rw [rule?, rule?, hlookup _ hname, hlookup _ hcode]
  rw [adjust, adjust, isEnabled, isEnabled, severity?, severity?, hrule]

/-- The entry under a rule's own name goes before any other. -/
theorem adjust_setRule_disabled (vs : List Violation) :
    (c.setRule r.name { enabled := some false }).adjust r vs = [] := by
  have hrule : (c.setRule r.name { enabled := some false }).rule? r.name r.code = some { enabled := some false } := by
    simp [setRule, rule?]
  simp [adjust, isEnabled, hrule]

theorem signs_of_mem_adjust {vs : List Violation} (h : ∀ v ∈ vs, r.Signs v) {v : Violation} (hv : v ∈ c.adjust r vs) :
    r.Signs v := by
  obtain ⟨u, hu, rfl⟩ := exists_of_mem_adjust hv
  exact h u hu

end Config

/-! ## Rules that are left out -/

/-- Is the rule of a violation among those that are selected by name or code? -/
def Violation.selectedBy (v : Violation) (selected : List String) : Bool :=
  selected.contains v.rule || selected.contains v.code

theorem RuleInfo.Signs.selectedBy_eq {r : RuleInfo} {v : Violation} (h : r.Signs v) (selected : List String) :
    v.selectedBy selected = r.selectedBy selected := by
  rw [Violation.selectedBy, RuleInfo.selectedBy, h.1, h.2, Bool.eq_iff_iff]
  simp only [Bool.or_eq_true, List.contains_iff_mem, List.any_eq_true, beq_iff_eq]
  constructor
  · rintro (h | h)
    · exact ⟨_, h, .inl rfl⟩
    · exact ⟨_, h, .inr rfl⟩
  · rintro ⟨s, hs, rfl | rfl⟩
    · exact .inl hs
    · exact .inr hs

/-- Leaving out members leaves out what they contribute. -/
theorem flatMap_filter_eq {ι α : Type} {keep : ι → Bool} {q : α → Bool} {g g' : ι → List α} {is : List ι}
    (hsame : ∀ i ∈ is, g' i = g i) (hq : ∀ i ∈ is, ∀ a ∈ g i, q a = keep i) :
    (is.filter keep).flatMap g' = (is.flatMap g).filter q := by
  induction is with
  | nil => rfl
  | cons i is ih =>
    have ih := ih (fun j hj => hsame j (List.mem_cons_of_mem i hj)) fun j hj => hq j (List.mem_cons_of_mem i hj)
    rw [List.flatMap_cons, List.filter_append]
    cases hi : keep i with
    | true =>
      have hkept : (g i).filter q = g i := List.filter_eq_self.2 fun a ha => (hq i (by simp) a ha).trans hi
      rw [List.filter_cons_of_pos hi, List.flatMap_cons, ih, hsame i (by simp), hkept]
    | false =>
      have hgone : (g i).filter q = [] := by
        apply List.filter_eq_nil_iff.2
        intro a ha
        rw [hq i (by simp) a ha, hi]
        exact Bool.false_ne_true
      rw [List.filter_cons_of_neg (by simp [hi]), ih, hgone, List.nil_append]

/-- No rule of a configuration goes by the name of unclosed comments. -/
theorem RuleSet.ne_unclosed_of_mem {c : Config} {rules : RuleSet} (h : RuleSet.ofConfig c = .ok rules) :
    (∀ r ∈ rules.blockRules, r.name ≠ unclosedInfo.name ∧ r.code ≠ unclosedInfo.name) ∧
      ∀ r ∈ rules.fileRules, r.name ≠ unclosedInfo.name ∧ r.code ≠ unclosedInfo.name := by
  have hscope : ∀ scope, (Rule.headerTagsInfo scope).name ≠ unclosedInfo.name ∧
      (Rule.headerTagsInfo scope).code ≠ unclosedInfo.name := by
    intro scope
    cases scope <;> decide
  constructor
  · intro r hr
    rcases RuleSet.mem_blockRules_ofConfig h hr with ⟨scope, rule, rfl⟩ | rfl | rfl | rfl
    · exact hscope scope
    all_goals decide
  · intro r hr
    obtain rfl := List.mem_singleton.1 ((RuleSet.telling_ofConfig h).files.subset hr)
    decide

/-- A limited run finds what the whole run finds by the selected rules. -/
theorem FileView.found_limit {c : Config} {rules : RuleSet} (h : RuleSet.ofConfig c = .ok rules) (f : FileView)
    (selected : List String) :
    f.found (Check.limit selected c rules).1 (Check.limit selected c rules).2 =
      (f.found c rules).filter fun v => v.selectedBy selected := by
  have hsigned := RuleSet.signed_ofConfig h
  obtain ⟨hblocks, hfiles⟩ := RuleSet.ne_unclosed_of_mem h
  have hother : ∀ {r : RuleInfo}, r.name ≠ unclosedInfo.name ∧ r.code ≠ unclosedInfo.name → ∀ vs,
      (Check.limit selected c rules).1.adjust r vs = c.adjust r vs := by
    intro r hr vs
    unfold Check.limit
    split
    · rfl
    · exact Config.adjust_setRule_of_ne hr.1 hr.2 vs
  rw [← List.filterMap_eq_filter]
  apply found_eq_filterMap
  · intro o
    have hown : ∀ v ∈ c.adjust unclosedInfo [f.unclosedViolation o],
        v.selectedBy selected = unclosedInfo.selectedBy selected := by
      intro v hv
      apply RuleInfo.Signs.selectedBy_eq
      apply Config.signs_of_mem_adjust _ hv
      intro u hu
      rw [List.mem_singleton.1 hu]
      exact f.signs_unclosedViolation o
    rw [List.filterMap_eq_filter]
    unfold Check.limit
    split
    · next hs =>
      symm
      apply List.filter_eq_self.2
      intro v hv
      rw [hown v hv, hs]
    · next hs =>
      rw [Config.adjust_setRule_disabled]
      symm
      apply List.filter_eq_nil_iff.2
      intro v hv
      rwa [hown v hv]
  · intro b
    rw [List.filterMap_eq_filter]
    apply flatMap_filter_eq
    · intro r hr
      exact hother (hblocks r hr) _
    · intro r hr v hv
      exact (Config.signs_of_mem_adjust (hsigned.blocks r hr (f.blockView b)) hv).selectedBy_eq selected
  · rw [List.filterMap_eq_filter]
    apply flatMap_filter_eq
    · intro r hr
      exact hother (hfiles r hr) _
    · intro r hr v hv
      exact (Config.signs_of_mem_adjust (hsigned.files r hr f f.blocks) hv).selectedBy_eq selected

theorem FileView.analyze_limit {c : Config} {rules : RuleSet} (h : RuleSet.ofConfig c = .ok rules) (f : FileView)
    (selected : List String) :
    f.analyze (Check.limit selected c rules).1 (Check.limit selected c rules).2 =
      (f.analyze c rules).filter fun v => v.selectedBy selected := by
  rw [analyze, analyze, Violation.filter_sorted, f.found_limit h]

/-! ## Limited projects -/

namespace Project

/-- A project of which only some rules are asked for. -/
def limited (p : Project) (selected : List String) : Project :=
  { p with
    config := (Check.limit selected p.config p.rules).1
    rules := (Check.limit selected p.config p.rules).2 }

variable {p : Project} (selected : List String)

/-- A limited project has the same files. -/
theorem files_limited (p : Project) : (p.limited selected).files = p.files := by
  unfold limited Check.limit
  split <;> rfl

theorem analyzeFile_limited (h : RuleSet.ofConfig p.config = .ok p.rules) (path : Path) :
    (p.limited selected).analyzeFile path =
      (p.analyzeFile path).map fun vs => vs.filter fun v => v.selectedBy selected := by
  unfold analyzeFile
  have hlanguage : (p.limited selected).language? path = p.language? path := rfl
  have htext : (p.limited selected).tree.readText path = p.tree.readText path := rfl
  rw [hlanguage, htext]
  split
  · rfl
  · rfl
  · next l source _ _ =>
    rw [analyzeText, analyzeText, analyzeSource, analyzeSource]
    cases l.read source.toList with
    | error e => rfl
    | ok stream =>
      exact congrArg Except.ok (FileView.analyze_limit h ⟨p.relative path, stream⟩ selected)

theorem violationsOf_limited (h : RuleSet.ofConfig p.config = .ok p.rules) (path : Path) :
    (p.limited selected).violationsOf path = (p.violationsOf path).filter fun v => v.selectedBy selected := by
  rw [violationsOf, violationsOf, analyzeFile_limited selected h]
  cases p.analyzeFile path <;> rfl

theorem failure?_limited (h : RuleSet.ofConfig p.config = .ok p.rules) (path : Path) :
    (p.limited selected).failure? path = p.failure? path := by
  rw [failure?, failure?, analyzeFile_limited selected h]
  cases p.analyzeFile path <;> rfl

/-- The report of a limited project differs in the violations only, which are chosen from all. -/
theorem analyzeFiles_limited (h : RuleSet.ofConfig p.config = .ok p.rules) (paths : List Path) :
    (p.limited selected).analyzeFiles paths =
      { p.analyzeFiles paths with
        violations := (p.analyzeFiles paths).violations.filter fun v => v.selectedBy selected } := by
  apply Report.ext
  · show _ = (p.analyzeFiles paths).violations.filter fun v => v.selectedBy selected
    rw [violations_analyzeFiles, violations_analyzeFiles, Violation.filter_sorted, List.filter_flatMap,
      funext (violationsOf_limited selected h)]
  · show _ = (p.analyzeFiles paths).filesChecked
    have hchecked : (p.limited selected).isChecked = p.isChecked := by
      funext path
      rw [isChecked, isChecked, failure?_limited selected h]
    rw [filesChecked_analyzeFiles, filesChecked_analyzeFiles, hchecked]
  · show _ = (p.analyzeFiles paths).failures
    rw [failures_analyzeFiles, failures_analyzeFiles, funext (failure?_limited selected h)]

theorem limited_atPath (t : FileTree) (e : Environment) (path : Path) (c : Config) (rules : RuleSet)
    (exclude : List String) :
    atPath t e path (Check.limit selected c rules).1 (Check.limit selected c rules).2 exclude =
      (atPath t e path c rules exclude).limited selected := by
  unfold atPath limited Check.limit
  split <;> rfl

end Project

namespace Check

/-- What a run returns: the report on the files of its project. -/
def reportOn (p : Project) : Except CommandFailure (Project × Report) :=
  match p.files with
  | .ok files => .ok (p, p.analyzeFiles files)
  | .error e => .error (.rootUnreadable p.root e)

theorem value_execute (t : FileTree) (e : Environment) (path : Path) (c : Config) (filter : Option String)
    (exclude : List String) :
    (execute t e path c filter exclude).value =
      match RuleSet.ofConfig c with
      | .error cause => .error (.rulesInvalid cause)
      | .ok rules =>
        match filter with
        | none => reportOn (.atPath t e path c rules exclude)
        | some filter => reportOn (.limited (.atPath t e path c rules exclude) (selection filter)) := by
  unfold execute
  cases RuleSet.ofConfig c with
  | error cause => rfl
  | ok rules =>
    have hrun : ∀ p : Project, (do
        let report ← analyze p
        return (p, report) : Noted (Project × Report)).value = reportOn p := by
      intro p
      unfold analyze reportOn
      cases p.files <;> rfl
    cases filter with
    | none => exact hrun _
    | some filter =>
      simp only [← Project.limited_atPath]
      exact hrun _

theorem selectedBy_selection (filter : String) (v : Violation) :
    v.selectedBy (selection filter) = decide (Named filter v.rule ∨ Named filter v.code) := by
  rw [Bool.eq_iff_iff, decide_eq_true_iff, ← mem_selection, ← mem_selection]
  simp [Violation.selectedBy]

end Check

/-- A run with a filter fails exactly as the run without it does; else it has checked the same files, has the same
failures, and lists, in their order, the violations whose rule the filter names. -/
theorem execute_filtered (t : FileTree) (e : Environment) (path : Path) (c : Config) (filter : String)
    (exclude : List String) :
    (Check.execute t e path c (some filter) exclude).value.map (fun run => run.2) =
      (Check.execute t e path c none exclude).value.map fun run =>
        { run.2 with
          violations := run.2.violations.filter fun v => Check.Named filter v.rule ∨ Check.Named filter v.code } := by
  rw [Check.value_execute, Check.value_execute]
  cases h : RuleSet.ofConfig c with
  | error cause => rfl
  | ok rules =>
    simp only [Check.reportOn, Project.files_limited]
    cases (Project.atPath t e path c rules exclude).files with
    | error cause => rfl
    | ok files =>
      have hreport := (Project.atPath t e path c rules exclude).analyzeFiles_limited (Check.selection filter) h files
      simp only [Except.map, hreport, Check.selectedBy_selection]

end DocLint
