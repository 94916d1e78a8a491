import Mathlib.Data.List.Nodup
import Mathlib.Logic.Relation
import DocLint.Analysis
import DocLint.Proofs.Finding
import DocLint.Proofs.Index
import DocLint.Proofs.Listing

/-!
# Workers and their sink

The comments of a file are looked at by many workers at once, which hand over what they find to one sink.  A step
is one call on the sink, or the passage to the next stage once every call of a stage is made.  No step adds or
loses anything, and what is found in a script is listed in one way only; so every schedule ends with the same list.
-/
namespace DocLint

/-- A call on the sink. -/
inductive Call where
  | push (v : Violation)
  | extend (vs : List Violation)
  deriving DecidableEq, Repr

def Call.violations : Call → List Violation
  | push v => [v]
  | extend vs => vs

/-- The workers of a stage, each with the calls that it has still to make, the stages after it, and what the sink
holds. -/
structure Workers where
  running : List (List Call)
  waiting : List (List (List Call))
  sink : List Violation
  deriving DecidableEq, Repr

namespace Workers

/-- Every call of the stage at hand is made. -/
def Idle (running : List (List Call)) : Prop := ∀ calls ∈ running, calls = []

inductive Step : Workers → Workers → Prop
  | call {before after : List (List Call)} {k : Call} {calls : List Call} {waiting : List (List (List Call))}
      {sink : List Violation} :
      Step ⟨before ++ (k :: calls) :: after, waiting, sink⟩
        ⟨before ++ calls :: after, waiting, sink ++ k.violations⟩
  | stage {running next : List (List Call)} {waiting : List (List (List Call))} {sink : List Violation}
      (idle : Idle running) : Step ⟨running, next :: waiting, sink⟩ ⟨next, waiting, sink⟩

abbrev Reaches : Workers → Workers → Prop := Relation.ReflTransGen Step

def Finished (s : Workers) : Prop := Idle s.running ∧ s.waiting = []

/-- What the sink holds and what it is going to get. -/
def total (s : Workers) : List Violation :=
  s.sink ++ (s.running ++ s.waiting.flatten).flatten.flatMap Call.violations

/-- The number of steps that are left. -/
def remaining (s : Workers) : Nat := (s.running ++ s.waiting.flatten).flatten.length + s.waiting.length

variable {s t : Workers}

theorem flatten_of_idle {running : List (List Call)} (h : Idle running) : running.flatten = [] :=
  List.flatten_eq_nil_iff.2 h

/-- No step adds or loses a violation. -/
theorem Step.total_perm (h : Step s t) : t.total.Perm s.total := by
  cases h with
  | call =>
    simp only [total, List.flatten_append, List.flatten_cons, List.flatMap_append, List.flatMap_cons,
      List.append_assoc, List.cons_append]
    exact .append_left _ (List.perm_append_comm_assoc _ _ _)
  | stage idle => simp [total, flatten_of_idle idle]

/-- Every step is one step less to make. -/
theorem Step.remaining_lt (h : Step s t) : t.remaining < s.remaining := by
  cases h with
  | call => simp [remaining]
  | stage idle => simp [remaining, flatten_of_idle idle]

theorem Reaches.total_perm (h : Reaches s t) : t.total.Perm s.total := by
  induction h with
  | refl => exact .refl _
  | tail _ hstep ih => exact hstep.total_perm.trans ih

/-- Workers that are not finished can make a step. -/
theorem finished_or_step (s : Workers) : s.Finished ∨ ∃ t, Step s t := by
  obtain ⟨running, waiting, sink⟩ := s
  by_cases hidle : Idle running
  · cases waiting with
    | nil => exact .inl ⟨hidle, rfl⟩
    | cons next waiting => exact .inr ⟨_, .stage hidle⟩
  · simp only [Idle, not_forall] at hidle
    obtain ⟨calls, hmem, hne⟩ := hidle
    obtain ⟨before, after, rfl⟩ := List.append_of_mem hmem
    obtain ⟨k, calls, rfl⟩ := List.exists_cons_of_ne_nil hne
    exact .inr ⟨_, .call⟩

/-- There is no endless run. -/
theorem wellFounded_step : WellFounded fun t s : Workers => Step s t :=
  Subrelation.wf Step.remaining_lt (measure remaining).wf

/-- Every run can be brought to its end. -/
theorem exists_finished (s : Workers) : ∃ t, Reaches s t ∧ t.Finished := by
  induction s using wellFounded_step.induction with
  | _ s ih =>
    rcases finished_or_step s with h | ⟨t, ht⟩
    · exact ⟨s, .refl, h⟩
    · obtain ⟨u, hu, hf⟩ := ih t ht
      exact ⟨u, .head ht hu, hf⟩

theorem Finished.total_eq (h : s.Finished) : s.total = s.sink := by
  simp [total, flatten_of_idle h.1, h.2]

end Workers

/-! ## What the workers of a file hand over -/

/-- What a rule finds is handed over in one call, if the rule is enabled. -/
def Config.calls (c : Config) (r : RuleInfo) (vs : List Violation) : List Call :=
  if c.isEnabled r.name r.code then [.extend (c.adjust r vs)] else []

namespace FileView

variable (f : FileView) (c : Config) (rules : RuleSet)

/-- A comment that is never closed is pushed at once. -/
def openerCalls (o : Nat) : List Call :=
  match Block.extract f.stream o with
  | .ok _ => []
  | .error _ => (c.adjust unclosedInfo [f.unclosedViolation o]).map .push

/-- The rules look at a block one after another. -/
def blockCalls (b : Block) : List Call :=
  rules.blockRules.flatMap fun r => c.calls r.toRuleInfo (r.check (f.blockView b))

def fileCalls : List Call :=
  rules.fileRules.flatMap fun r => c.calls r.toRuleInfo (r.check f f.blocks)

/-- A worker for each comment, then a worker for each block, then one worker for the file rules. -/
def workers : Workers where
  running := f.stream.openers.map (f.openerCalls c)
  waiting := [f.blocks.map (f.blockCalls c rules), [f.fileCalls c rules]]
  sink := []

end FileView

theorem flatMap_violations_calls (c : Config) (r : RuleInfo) (vs : List Violation) :
    (c.calls r vs).flatMap Call.violations = c.adjust r vs := by
  unfold Config.calls Config.adjust
  split <;> simp [Call.violations]

namespace FileView

variable {f : FileView} {c : Config} {rules : RuleSet}

theorem flatMap_openerCalls (os : List Nat) :
    os.flatMap (fun o => (f.openerCalls c o).flatMap Call.violations) =
      (os.filter fun o => match Block.extract f.stream o with | .ok _ => false | .error _ => true).flatMap
        fun o => c.adjust unclosedInfo [f.unclosedViolation o] := by
  induction os with
  | nil => rfl
  | cons o os ih =>
    rw [List.flatMap_cons, ih, List.filter_cons]
    cases h : Block.extract f.stream o with
    | ok b => simp [openerCalls, h]
    | error e => simp [openerCalls, h, List.flatMap_map, Call.violations]

/-- All that the workers hand over is what is found in the file. -/
theorem total_workers : (f.workers c rules).total = f.found c rules := by
  have hblocks : ∀ b, (f.blockCalls c rules b).flatMap Call.violations = f.blockViolations c rules b := by
    intro b
    simp only [blockCalls, blockViolations, List.flatMap_assoc, flatMap_violations_calls]
  have hfile : (f.fileCalls c rules).flatMap Call.violations = f.fileViolations c rules := by
    simp only [fileCalls, fileViolations, List.flatMap_assoc, flatMap_violations_calls]
  have hunclosed : f.stream.openers.flatMap (fun o => (f.openerCalls c o).flatMap Call.violations) =
      f.unclosed.flatMap fun o => c.adjust unclosedInfo [f.unclosedViolation o] :=
    flatMap_openerCalls f.stream.openers
  simp only [Workers.total, workers, List.flatten_cons, List.flatten_nil, List.append_nil, List.flatten_append,
    ← List.flatMap_def, List.flatMap_append, List.flatMap_assoc, List.nil_append, hunclosed, hblocks, hfile, found,
    List.append_assoc]

end FileView

/-! ## What is found has its own key -/

theorem exists_of_mem_adjust {c : Config} {r : RuleInfo} {vs : List Violation} {v : Violation}
    (h : v ∈ c.adjust r vs) :
    ∃ u ∈ vs, v = { u with severity := (c.severity? r.name r.code).getD u.severity } := by
  unfold Config.adjust at h
  split at h
  · split at h
    · next severity hs =>
      obtain ⟨u, hu, rfl⟩ := List.mem_map.1 h
      exact ⟨u, hu, by rw [hs]; rfl⟩
    · next hs => exact ⟨v, h, by rw [hs]; rfl⟩
  · cases h

namespace FileView

variable {f : FileView} {c : Config} {rules : RuleSet}

/-- Where a violation comes from: an unclosed comment, a block and a rule, or the file rule. -/
theorem mem_found (h : rules.Telling) {v : Violation} (hv : v ∈ f.found c rules) :
    (v.code = "YD000" ∧ ∃ o ∈ f.stream.openers, v ∈ c.adjust unclosedInfo [f.unclosedViolation o]) ∨
    (∃ b ∈ f.blocks, ∃ r ∈ rules.blockRules, v.code = r.code ∧ v.location = f.location b.opener ∧
      v ∈ c.adjust r.toRuleInfo (r.check (f.blockView b))) ∨
    (v.code = "YD007" ∧ v ∈ c.adjust Rule.modulePresenceInfo (Rule.modulePresence.check f f.blocks)) := by
  simp only [found, unclosed, blockViolations, fileViolations, List.mem_append, List.mem_flatMap,
    List.mem_filter] at hv
  rcases hv with (⟨o, ⟨ho, -⟩, hv⟩ | ⟨b, hb, r, hr, hv⟩) | ⟨r, hr, hv⟩
  · refine .inl ⟨?_, o, ho, hv⟩
    obtain ⟨u, hu, rfl⟩ := exists_of_mem_adjust hv
    rw [List.mem_singleton.1 hu]
    rfl
  · refine .inr (.inl ⟨b, hb, r, hr, ?_, ?_, hv⟩)
    all_goals
      obtain ⟨u, hu, rfl⟩ := exists_of_mem_adjust hv
    · exact ((h.told r hr).stamped _ u hu).1
    · exact ((h.told r hr).stamped _ u hu).2
  · obtain rfl := List.mem_singleton.1 (h.files.subset hr)
    refine .inr (.inr ⟨?_, hv⟩)
    obtain ⟨u, hu, rfl⟩ := exists_of_mem_adjust hv
    simp only [Rule.modulePresence] at hu
    split at hu
    · cases hu
    · rw [List.mem_singleton.1 hu]
      rfl

/-- In a script, whatever is found with the same key is the same. -/
theorem keyed_found (h : rules.Telling) (path : Path) (source : List Char) :
    Violation.Keyed ((FileView.mk path (.ofSource source)).found c rules) := by
  have codes : ∀ r ∈ rules.blockRules, r.code ≠ "YD000" ∧ r.code ≠ "YD007" := fun r hr => h.code_ne hr
  intro v hv w hw hvw
  obtain ⟨hline, hcolumn, hcode, hmessage⟩ := Violation.eq_of_order_eq hvw
  rcases mem_found h hv with ⟨hvc, o, ho, hv⟩ | ⟨b, hb, r, hr, hvc, hvl, hv⟩ | ⟨hvc, hv⟩
  · rcases mem_found h hw with ⟨hwc, p, hp, hw⟩ | ⟨_, _, r, hr, hwc, -⟩ | ⟨hwc, -⟩
    · obtain ⟨u, hu, rfl⟩ := exists_of_mem_adjust hv
      obtain ⟨u', hu', rfl⟩ := exists_of_mem_adjust hw
      obtain rfl := List.mem_singleton.1 hu
      obtain rfl := List.mem_singleton.1 hu'
      obtain rfl := eq_of_location ho hp hline hcolumn
      rfl
    · exact absurd (hwc.symm.trans (hcode.symm.trans hvc)) (codes r hr).1
    · exact absurd (hvc.symm.trans (hcode.trans hwc)) (by decide)
  · rcases mem_found h hw with ⟨hwc, -⟩ | ⟨b', hb', r', hr', hwc, hwl, hw⟩ | ⟨hwc, -⟩
    · exact absurd (hvc.symm.trans (hcode.trans hwc)) (codes r hr).1
    · rw [hvl, hwl] at hline hcolumn
      obtain ⟨ho, hx⟩ := mem_blocks.1 hb
      obtain ⟨ho', hx'⟩ := mem_blocks.1 hb'
      have hopener := eq_of_location ho ho' hline hcolumn
      obtain rfl : b = b' := Except.ok.inj (hx.symm.trans (hopener ▸ hx'))
      have hcodes : (rules.blockRules.map fun r => r.code).Nodup := h.codes.nodup (by decide)
      obtain rfl := List.inj_on_of_nodup_map hcodes hr hr' (hvc.symm.trans (hcode.trans hwc))
      obtain ⟨u, hu, rfl⟩ := exists_of_mem_adjust hv
      obtain ⟨u', hu', rfl⟩ := exists_of_mem_adjust hw
      obtain rfl := (h.told r hr).told _ u hu u' hu' hmessage
      rfl
    · exact absurd (hvc.symm.trans (hcode.trans hwc)) (codes r hr).2
  · rcases mem_found h hw with ⟨hwc, -⟩ | ⟨_, _, r, hr, hwc, -⟩ | ⟨hwc, hw⟩
    · exact absurd (hvc.symm.trans (hcode.trans hwc)) (by decide)
    · exact absurd (hwc.symm.trans (hcode.symm.trans hvc)) (codes r hr).2
    · obtain ⟨u, hu, rfl⟩ := exists_of_mem_adjust hv
      obtain ⟨u', hu', rfl⟩ := exists_of_mem_adjust hw
      simp only [Rule.modulePresence] at hu hu'
      split at hu
      · cases hu
      · next hm =>
        rw [if_neg hm] at hu'
        obtain rfl := List.mem_singleton.1 hu
        obtain rfl := List.mem_singleton.1 hu'
        rfl

end FileView

/-- The analysis of a script lists everything that is found in it, each once and in order; and whatever the order in
which the workers' calls arrive, the sink ends up with that list. -/
theorem analyzeScript_of_every_schedule {c : Config} {rules : RuleSet} (h : RuleSet.ofConfig c = .ok rules)
    (path : Path) (source : List Char) :
    (∀ s, Workers.Reaches ((FileView.mk path (.ofSource source)).workers c rules) s →
      (s.Finished → analyzeSource .javaScript c rules path source = .ok (Violation.sorted s.sink)) ∧
      ∃ t, Workers.Reaches s t ∧ t.Finished) ∧
    WellFounded (fun t s => Workers.Step s t) ∧
    (analyzeScript c rules path source).Perm ((FileView.mk path (.ofSource source)).found c rules) ∧
    (analyzeScript c rules path source).Pairwise fun v w => (Violation.order v w).isLE = true := by
  refine ⟨fun s hs => ⟨fun hf => ?_, s.exists_finished⟩, Workers.wellFounded_step, Violation.sorted_perm _,
    Violation.pairwise_sorted _⟩
  have hperm := hs.total_perm
  rw [hf.total_eq, FileView.total_workers] at hperm
  rw [analyzeSource_javaScript, (FileView.keyed_found (RuleSet.telling_ofConfig h) path source).sorted_eq hperm]
  rfl

theorem analyzeScript_of_some_schedule :
    RuleSet.ofConfig {} = .ok RuleSet.standardRules ∧
    ∃ s, Workers.Reaches ((FileView.mk (.ofString "a.js") (.ofSource "/** a */ /** b".toList)).workers {}
        RuleSet.standardRules) s ∧ s.Finished ∧
      analyzeSource .javaScript {} RuleSet.standardRules (.ofString "a.js") "/** a */ /** b".toList =
        .ok (Violation.sorted s.sink) := by
  have h : RuleSet.ofConfig {} = .ok RuleSet.standardRules := RuleSet.standard_eq
  have hall := (analyzeScript_of_every_schedule h (.ofString "a.js") "/** a */ /** b".toList).1
  obtain ⟨s, hs, hf⟩ := (hall _ .refl).2
  exact ⟨h, s, hs, hf, (hall s hs).1 hf⟩

end DocLint
