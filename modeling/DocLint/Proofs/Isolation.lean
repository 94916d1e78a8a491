import Mathlib.Data.List.InsertIdx
import DocLint.Proofs.Locality
import DocLint.Proofs.SameFindings

/-!
# Doc comments do not disturb each other

Inside a doc comment stands what it says, and nothing else: a bracket, a quote or the word `function` there is no
code.  When one comment of a script is rewritten, the slices before it stay where they are, those after it are found
again at other places, and every other comment documents what it did and says what it did.
-/
namespace DocLint

open DocComment (opening closing)

/-- A script with a doc comment in it. -/
def commented (before body after : List Char) : List Char := before ++ (opening ++ (body ++ closing) ++ after)

/-- The comment between the two texts is one of the doc comments into which the script is cut. -/
def IsDocComment (before body after : List Char) : Prop :=
  (Position.start.advance (withoutByteOrderMark before), opening ++ (body ++ closing)) ∈
    commentsOf .doc (withoutByteOrderMark (commented before body after))

instance (before body after : List Char) : Decidable (IsDocComment before body after) :=
  inferInstanceAs (Decidable (_ ∈ commentsOf .doc _))

/-! ## The slices of the rewritten script -/

theorem withoutByteOrderMark_commented (before body after : List Char) :
    withoutByteOrderMark (commented before body after) = commented (withoutByteOrderMark before) body after := by
  by_cases hmark : before.head? = some '\uFEFF'
  · obtain ⟨cs, rfl⟩ := List.head?_eq_some_iff.1 hmark
    rfl
  · have hwhole : (commented before body after).head? ≠ some '\uFEFF' := by
      cases before with
      | nil => simp [commented, opening]
      | cons c cs => exact hmark
    rw [withoutByteOrderMark_eq_self hmark, withoutByteOrderMark_eq_self hwhole]

theorem DocComment.not_closing_concat {body : List Char} (h : ¬ closing <:+: body) : ¬ closing <:+: body ++ ['*'] := by
  rw [List.infix_concat_iff]
  rintro (hend | hin)
  · obtain ⟨rest, hrest⟩ := hend
    have hlast := congrArg List.getLast? hrest
    simp [closing] at hlast
  · exact h hin

namespace Slice

theorem exists_of_mem_spread {p : Position} {ss : List Slice} {x : Position × Slice} (h : x ∈ spread p ss) :
    ∃ before after, ss = before ++ x.2 :: after ∧ x.1 = p.advance (before.flatMap Slice.text) := by
  induction ss generalizing p with
  | nil => cases h
  | cons s ss ih =>
    cases h with
    | head => exact ⟨[], ss, rfl, rfl⟩
    | tail _ h =>
      obtain ⟨before, after, rfl, hp⟩ := ih h
      exact ⟨s :: before, after, rfl, by rw [hp, List.flatMap_cons, Position.advance_append]⟩

/-- The slices of a script with a comment in it are those before it, the comment, and those of the text after it. -/
theorem exists_ofText_commented {before body after : List Char}
    (h : (Position.start.advance before, opening ++ (body ++ closing)) ∈
      commentsOf .doc (commented before body after)) :
    ∃ ss, ss.flatMap Slice.text = before ∧
      ofText (commented before body after) = ss ++ ⟨.doc, opening ++ (body ++ closing)⟩ :: ofText after := by
  obtain ⟨ss, ts, hss, hp⟩ := exists_of_mem_spread (mem_commentsOf.1 h)
  have htext := congrArg (List.flatMap Slice.text) hss
  rw [flatMap_text_ofText, List.flatMap_append, List.flatMap_cons] at htext
  have hbefore : ss.flatMap Slice.text = before :=
    Position.eq_of_isPrefix ⟨_, htext.symm⟩ (List.prefix_append before _) (by rw [← hp]) (by rw [← hp])
  refine ⟨ss, hbefore, ?_⟩
  rw [hbefore] at htext
  have hafter : after = ts.flatMap Slice.text := List.append_cancel_left (List.append_cancel_left htext)
  have hts : ofText after = ts := by
    rw [List.append_cons] at hss
    rw [hafter, ofText_behind hss]
  rw [hss, hts]

/-- If another text stands in the comment, the slices before it and after it are the same. -/
theorem ofText_commented {ss : List Slice} {body body' after : List Char}
    (h : ofText (commented (ss.flatMap Slice.text) body after) =
      ss ++ ⟨.doc, opening ++ (body ++ closing)⟩ :: ofText after)
    (hclose : ¬ closing <:+: body') (hslash : body'.head? ≠ some '/') :
    ofText (commented (ss.flatMap Slice.text) body' after) =
      ss ++ ⟨.doc, opening ++ (body' ++ closing)⟩ :: ofText after := by
  -- Both comments begin with the same slash, and the slices before it end there.
  rw [← ofText_doc (DocComment.not_closing_concat hclose) hslash]
  refine ofText_congr (u := '*' :: '*' :: (body ++ closing ++ after)) ?_ _
  have hbehind := ofText_behind h
  rw [List.flatMap_cons, flatMap_text_ofText] at hbehind
  rw [← hbehind] at h
  exact h

end Slice

/-! ## Its landmarks and comments -/

/-- A landmark wherever it stands. -/
def Landmark.unplaced : Landmark → Landmark
  | code k => code k
  | comment _ _ contents => comment 0 0 contents

/-- A comment wherever it stands. -/
def Site.unplaced (s : Site) : Site := { s with line := 0, column := 0 }

theorem Site.unplaced_inj {s t : Site} :
    s.unplaced = t.unplaced ↔ s.length = t.length ∧ s.subject = t.subject ∧ s.contents = t.contents := by
  simp [unplaced]

namespace Landmark

theorem filterMap_kind?_unplaced (ls : List Landmark) :
    (ls.map unplaced).filterMap kind? = ls.filterMap kind? := by
  rw [List.filterMap_map]
  refine List.filterMap_congr fun l _ => ?_
  cases l <;> rfl

theorem sites_unplaced (before : List Kind) (ls : List Landmark) :
    sites before (ls.map unplaced) = (sites before ls).map Site.unplaced := by
  induction ls generalizing before with
  | nil => rfl
  | cons l ls ih =>
    cases l with
    | code k => exact ih _
    | comment line column contents =>
      rw [List.map_cons, unplaced, sites, sites, List.map_cons, ih, filterMap_kind?_unplaced]
      rfl

/-- The comments among some landmarks, if code of the kinds `before` and `after` stands around them. -/
def sitesBetween (before after : List Kind) : List Landmark → List Site
  | [] => []
  | code k :: ls => sitesBetween (before ++ [k]) after ls
  | comment line column contents :: ls =>
    ⟨line, column, Text.byteLength opening, subjectOf before (ls.filterMap kind? ++ after), contents⟩ ::
      sitesBetween before after ls

theorem sites_append (before : List Kind) (ls ms : List Landmark) :
    sites before (ls ++ ms) =
      sitesBetween before (ms.filterMap kind?) ls ++ sites (before ++ ls.filterMap kind?) ms := by
  induction ls generalizing before with
  | nil => simp [sitesBetween]
  | cons l ls ih =>
    cases l with
    | code k => simpa [sites, sitesBetween, kind?] using ih (before ++ [k])
    | comment line column contents =>
      rw [List.cons_append, sites, sitesBetween, ih, List.filterMap_append]
      rfl

/-- What a comment documents depends on the code around it, and so do the comments around it. -/
theorem sites_append_comment (before : List Kind) (ls ms : List Landmark) (line column : Nat)
    (contents : Option Contents) :
    sites before (ls ++ comment line column contents :: ms) =
      sitesBetween before (ms.filterMap kind?) ls ++
        ⟨line, column, Text.byteLength opening, subjectOf (before ++ ls.filterMap kind?) (ms.filterMap kind?),
          contents⟩ ::
          sites (before ++ ls.filterMap kind?) ms :=
  sites_append before ls (comment line column contents :: ms)

end Landmark

namespace Slice

theorem landmarks_append (p : Position) (ss ts : List Slice) :
    landmarks p (ss ++ ts) = landmarks p ss ++ landmarks (p.advance (ss.flatMap Slice.text)) ts := by
  induction ss generalizing p with
  | nil => rfl
  | cons s ss ih =>
    rw [List.cons_append, landmarks, landmarks, ih, List.append_assoc, List.flatMap_cons, Position.advance_append]

/-- Slices leave the same landmarks from wherever they begin. -/
theorem map_unplaced_landmarks (p q : Position) (ss : List Slice) :
    (landmarks p ss).map Landmark.unplaced = (landmarks q ss).map Landmark.unplaced := by
  have one : ∀ (p : Position) (s : Slice), (s.landmark? p).toList.map Landmark.unplaced =
      (s.landmark? .start).toList.map Landmark.unplaced := by
    rintro p ⟨cls, text⟩
    cases cls with
    | token k => rfl
    | doc => rfl
    | dropped => rfl
  induction ss generalizing p q with
  | nil => rfl
  | cons s ss ih => rw [landmarks, landmarks, List.map_append, List.map_append, one p, one q, ih]

end Slice

/-- The comments of a script with a comment in it.  Those after it depend on its text by their places only. -/
theorem exists_sites_commented (path : Path) {before body after : List Char} {ss : List Slice}
    (hbefore : ss.flatMap Slice.text = withoutByteOrderMark before)
    (hcut : Slice.ofText (withoutByteOrderMark (commented before body after)) =
      ss ++ ⟨.doc, opening ++ (body ++ closing)⟩ :: Slice.ofText after) :
    ∃ s ts, (FileView.mk path (.ofSource (commented before body after))).sites =
        Landmark.sitesBetween [] ((Slice.landmarks .start (Slice.ofText after)).filterMap Landmark.kind?)
          (Slice.landmarks .start ss) ++ s :: ts ∧
      s.line = (Position.start.advance (withoutByteOrderMark before)).line ∧
      s.column = (Position.start.advance (withoutByteOrderMark before)).column ∧
      ts.map Site.unplaced = Landmark.sites ((Slice.landmarks .start ss).filterMap Landmark.kind?)
        ((Slice.landmarks .start (Slice.ofText after)).map Landmark.unplaced) := by
  have hkinds : ∀ q, (Slice.landmarks q (Slice.ofText after)).filterMap Landmark.kind? =
      (Slice.landmarks .start (Slice.ofText after)).filterMap Landmark.kind? := by
    intro q
    rw [← Landmark.filterMap_kind?_unplaced, Slice.map_unplaced_landmarks q .start, Landmark.filterMap_kind?_unplaced]
  have hdoc : ∀ p text, Slice.landmarks p (⟨.doc, text⟩ :: Slice.ofText after) =
      .comment p.line p.column (DocComment.contents? text) :: Slice.landmarks (p.advance text) (Slice.ofText after) :=
    fun _ _ => rfl
  rw [FileView.sites_ofSource, landmarksOf, hcut, Slice.landmarks_append, hbefore, hdoc, Landmark.sites_append_comment,
    hkinds]
  refine ⟨_, _, rfl, rfl, rfl, ?_⟩
  rw [← Landmark.sites_unplaced, Slice.map_unplaced_landmarks _ .start, List.nil_append]

/-- The `n`-th comment of a file opens at a line and column. -/
def FileView.CommentAt (f : FileView) (n : Nat) (p : Position) : Prop :=
  ∃ o, f.stream.openers[n]? = some o ∧ (f.location o).line = p.line ∧ (f.location o).column = p.column

theorem FileView.commentAt_of_sites {f : FileView} {p : Position} {ss ts : List Site} {s : Site}
    (h : f.sites = ss ++ s :: ts) (hl : s.line = p.line) (hc : s.column = p.column) : f.CommentAt ss.length p := by
  have hget : f.sites[ss.length]? = some s := by simp [h]
  rw [sites, List.getElem?_map] at hget
  obtain ⟨o, ho, rfl⟩ := Option.map_eq_some_iff.1 hget
  exact ⟨o, ho, hl, hc⟩

/-- All other comments of a script are the same if another text stands in one of them. -/
theorem exists_commentAt_commented (path : Path) {before body body' after : List Char}
    (h : IsDocComment before body after) (hclose : ¬ closing <:+: body') (hslash : body'.head? ≠ some '/') :
    ∃ n,
      (FileView.mk path (.ofSource (commented before body after))).CommentAt n
        (Position.start.advance (withoutByteOrderMark before)) ∧
      (FileView.mk path (.ofSource (commented before body' after))).CommentAt n
        (Position.start.advance (withoutByteOrderMark before)) ∧
      ((FileView.mk path (.ofSource (commented before body after))).sites.eraseIdx n).map Site.unplaced =
        ((FileView.mk path (.ofSource (commented before body' after))).sites.eraseIdx n).map Site.unplaced := by
  rw [IsDocComment, withoutByteOrderMark_commented] at h
  obtain ⟨slices, hbefore, hcut⟩ := Slice.exists_ofText_commented h
  have hcut' := hcut
  rw [← hbefore] at hcut'
  replace hcut' := Slice.ofText_commented hcut' hclose hslash
  rw [hbefore, ← withoutByteOrderMark_commented] at hcut'
  rw [← withoutByteOrderMark_commented] at hcut
  obtain ⟨s, ts, hs, hl, hc, hts⟩ := exists_sites_commented path hbefore hcut
  obtain ⟨s', ts', hs', hl', hc', hts'⟩ := exists_sites_commented path hbefore hcut'
  refine ⟨_, FileView.commentAt_of_sites hs hl hc, FileView.commentAt_of_sites hs' hl' hc', ?_⟩
  have herase : ∀ (ss ts : List Site) (s : Site), (ss ++ s :: ts).eraseIdx ss.length = ss ++ ts := by
    intro ss ts s
    simp [List.eraseIdx_append_of_length_le]
  rw [hs, hs', herase, herase, List.map_append, List.map_append, hts, hts']

/-! ## What is reported of a comment -/

/-- A violation wherever it stands in its file. -/
def Violation.withoutPlace (v : Violation) : Violation := v.at { v.location with line := 0, column := 0, offset := 0 }

/-- What is known of a comment: what it documents, what it says if it is closed, and what is reported of it. -/
structure Account where
  subject : Subject
  contents : Option Contents
  findings : List Violation
  deriving DecidableEq, Repr

/-- Violations at the same place are ordered in the same way at another one. -/
theorem Violation.order_at {v w : Violation} (h : v.location = w.location) (l : Location) :
    order (v.at l) (w.at l) = order v w := by
  have same : ∀ v w : Violation, v.location = w.location →
      order v w = compareLex (compareOn Violation.code) (compareOn Violation.message) v w := by
    intro v w h
    have hfile : Path.order w.location.file w.location.file = .eq := Std.ReflCmp.compare_self
    simp [order, compareLex, compareOn, h, hfile]
  rw [same (v.at l) (w.at l) rfl, same v w h]
  rfl

namespace FileView

variable {f g : FileView} {c : Config} {rules : RuleSet} {o p : Nat}

/-- What a report says of the comment that opens at `o`.  A missing module is reported of the file. -/
def account (f : FileView) (vs : List Violation) (o : Nat) : Account where
  subject := f.stream.subject o
  contents := (Block.extract f.stream o).toOption.map Block.contents
  findings := (vs.filter fun v => v.location = f.location o && v.code != "YD007").map Violation.withoutPlace

def accounts (f : FileView) (vs : List Violation) : List Account := f.stream.openers.map (f.account vs)

/-- Where the openers stand apart, what is found at the place of one is what is found at its comment. -/
theorem filter_commentFindings (ht : rules.Telling) (hn : f.stream.openers.Nodup) (ho : o ∈ f.stream.openers)
    (hapart : ∀ p ∈ f.stream.openers, f.location p = f.location o → p = o) :
    (f.commentFindings c rules).filter (fun v => v.location = f.location o) = f.findingsAt c rules o := by
  have hhere : (f.findingsAt c rules o).filter (fun v => v.location = f.location o) = f.findingsAt c rules o := by
    refine List.filter_eq_self.2 fun v hv => ?_
    simpa using location_of_mem_findingsAt ht hv
  obtain ⟨os, ps, hopeners⟩ := List.append_of_mem ho
  rw [hopeners] at hn hapart
  rw [List.nodup_middle, List.nodup_cons] at hn
  have helsewhere : ∀ p ∈ os ++ ps, (f.findingsAt c rules p).filter (fun v => v.location = f.location o) = [] := by
    intro p hp
    refine List.filter_eq_nil_iff.2 fun v hv => ?_
    rw [location_of_mem_findingsAt ht hv, decide_eq_true_eq]
    intro hlocation
    have hmem : p ∈ os ++ o :: ps := (List.sublist_append_right [o] ps |>.append_left os).subset hp
    rw [hapart p hmem hlocation] at hp
    exact hn.1 hp
  have hnone : ∀ {qs : List Nat}, qs ⊆ os ++ ps →
      qs.flatMap (fun p => (f.findingsAt c rules p).filter (fun v => v.location = f.location o)) = [] := by
    intro qs hqs
    exact List.flatMap_eq_nil_iff.2 fun p hp => helsewhere p (hqs hp)
  rw [commentFindings, List.filter_flatMap, hopeners, List.flatMap_append, List.flatMap_cons, hhere,
    hnone (List.subset_append_left os ps), hnone (List.subset_append_right os ps), List.nil_append, List.append_nil]

/-- What is reported at the place of a comment is what is found there. -/
theorem filter_analyze_at (ht : rules.Telling) (path : Path) (source : List Char)
    (ho : o ∈ (Stream.ofSource source).openers) :
    (analyzeScript c rules path source).filter
        (fun v => v.location = (FileView.mk path (.ofSource source)).location o && v.code != "YD007") =
      Violation.sorted ((FileView.mk path (.ofSource source)).findingsAt c rules o) := by
  have hnodup : (Stream.ofSource source).openers.Nodup := by
    rw [Stream.ofSource, Stream.openers_ofTokens]
    exact Stream.nodup_openPositions 0 _
  have hhere : ((FileView.mk path (.ofSource source)).commentFindings c rules).filter
      (fun v => v.location = (FileView.mk path (.ofSource source)).location o) =
        (FileView.mk path (.ofSource source)).findingsAt c rules o := by
    refine filter_commentFindings ht hnodup ho fun p hp hlocation => ?_
    exact eq_of_location hp ho (congrArg Location.line hlocation) (congrArg Location.column hlocation)
  refine (keyed_found ht path source).filter_sorted ?_
  rw [← hhere, ← List.filter_filter]
  exact (filter_found ht).filter _

theorem location_withoutPlace (hp : f.path = g.path) (hs : (f.site o).unplaced = (g.site p).unplaced) :
    ({ f.location o with line := 0, column := 0, offset := 0 } : Location) =
      { g.location p with line := 0, column := 0, offset := 0 } := by
  have hlength : (f.location o).length = (g.location p).length := (Site.unplaced_inj.1 hs).1
  simp only [file_location, hp, hlength]

/-- Of comments that are alike, the same is reported. -/
theorem map_withoutPlace_findingsAt (ht : rules.Telling) (hblind : ∀ r ∈ rules.blockRules, r.Blind)
    (hp : f.path = g.path) (hs : (f.site o).unplaced = (g.site p).unplaced) :
    (Violation.sorted (f.findingsAt c rules o)).map Violation.withoutPlace =
      (Violation.sorted (g.findingsAt c rules p)).map Violation.withoutPlace := by
  have listed : ∀ (f : FileView) (o : Nat), (Violation.sorted (f.findingsAt c rules o)).map Violation.withoutPlace =
      Violation.sorted ((f.findingsAt c rules o).map Violation.withoutPlace) := by
    intro f o
    refine Violation.map_sorted fun v hv w hw => ?_
    have hvw : v.location = w.location :=
      (location_of_mem_findingsAt ht hv).trans (location_of_mem_findingsAt ht hw).symm
    rw [Violation.withoutPlace, Violation.withoutPlace, hvw]
    exact Violation.order_at hvw _
  obtain ⟨-, hsubject, hcontents⟩ := Site.unplaced_inj.1 hs
  rw [listed f o, listed g p]
  refine congrArg Violation.sorted ?_
  exact map_at_findingsAt (e := fun l => { l with line := 0, column := 0, offset := 0 }) ht hblind
    (location_withoutPlace hp hs) hsubject hcontents

/-- What a report says beyond the comments: nothing but that the module is missing. -/
def Accounted (f : FileView) (vs : List Violation) : Prop :=
  ∀ v ∈ vs, v.code = "YD007" ∨ ∃ o ∈ f.stream.openers, v.location = f.location o

theorem accounted_analyze (ht : rules.Telling) : f.Accounted (f.analyze c rules) := by
  intro v hv
  have hmem := (f.found_perm c rules).mem_iff.1 ((Violation.sorted_perm _).mem_iff.1 hv)
  cases List.mem_append.1 hmem with
  | inl hmem =>
    obtain ⟨o, ho, hmem⟩ := List.mem_flatMap.1 hmem
    exact .inr ⟨o, ho, location_of_mem_findingsAt ht hmem⟩
  | inr hmem => exact .inl (code_of_mem_fileViolations ht hmem)

/-- Comments that are alike have the same account. -/
theorem account_eq (ht : rules.Telling) (hblind : ∀ r ∈ rules.blockRules, r.Blind) (path : Path)
    {source source' : List Char} (ho : o ∈ (Stream.ofSource source).openers)
    (hp : p ∈ (Stream.ofSource source').openers)
    (hs : ((FileView.mk path (.ofSource source)).site o).unplaced =
      ((FileView.mk path (.ofSource source')).site p).unplaced) :
    (FileView.mk path (.ofSource source)).account (analyzeScript c rules path source) o =
      (FileView.mk path (.ofSource source')).account (analyzeScript c rules path source') p := by
  obtain ⟨-, hsubject, hcontents⟩ := Site.unplaced_inj.1 hs
  have hpath : (FileView.mk path (.ofSource source)).path = (FileView.mk path (.ofSource source')).path := rfl
  have hfindings := map_withoutPlace_findingsAt (c := c) ht hblind hpath hs
  rw [← filter_analyze_at ht path source ho, ← filter_analyze_at ht path source' hp] at hfindings
  rw [account, account, Account.mk.injEq]
  exact ⟨hsubject, hcontents, hfindings⟩

end FileView

/-- If another text stands in a doc comment of a script, every other comment documents the same, says the same, and
has the same reported of it. -/
theorem analyzeSource_commented {c : Config} {rules : RuleSet} (h : RuleSet.ofConfig c = .ok rules) (path : Path)
    {before body body' after : List Char} (hdoc : IsDocComment before body after) (hclose : ¬ closing <:+: body')
    (hslash : body'.head? ≠ some '/') :
    ∃ vs ws n, analyzeSource .javaScript c rules path (commented before body after) = .ok vs ∧
      analyzeSource .javaScript c rules path (commented before body' after) = .ok ws ∧
      (FileView.mk path (.ofSource (commented before body after))).CommentAt n
        (Position.start.advance (withoutByteOrderMark before)) ∧
      (FileView.mk path (.ofSource (commented before body' after))).CommentAt n
        (Position.start.advance (withoutByteOrderMark before)) ∧
      ((FileView.mk path (.ofSource (commented before body after))).accounts vs).eraseIdx n =
        ((FileView.mk path (.ofSource (commented before body' after))).accounts ws).eraseIdx n ∧
      (FileView.mk path (.ofSource (commented before body after))).Accounted vs ∧
      (FileView.mk path (.ofSource (commented before body' after))).Accounted ws := by
  have ht := RuleSet.telling_ofConfig h
  have hblind : ∀ r ∈ rules.blockRules, r.Blind := fun r hr => RuleSet.blind_ofConfig h hr
  obtain ⟨n, hplace, hplace', hsites⟩ := exists_commentAt_commented path hdoc hclose hslash
  refine ⟨_, _, n, rfl, rfl, hplace, hplace', ?_, FileView.accounted_analyze ht, FileView.accounted_analyze ht⟩
  rw [FileView.sites, FileView.sites, List.eraseIdx_map, List.eraseIdx_map, List.map_map, List.map_map] at hsites
  rw [FileView.accounts, FileView.accounts, List.eraseIdx_map, List.eraseIdx_map]
  refine map_eq_map_of_like hsites fun o ho p hp hs => ?_
  exact FileView.account_eq ht hblind path (List.eraseIdx_subset ho) (List.eraseIdx_subset hp) hs

theorem analyzeSource_commented_in_params :
    RuleSet.ofConfig {} = .ok RuleSet.standardRules ∧
    IsDocComment "/** a */ f(".toList " b ".toList "x) /** c */ function(".toList ∧
    ¬ closing <:+: "), ' function(/** @d *".toList ∧ "), ' function(/** @d *".toList.head? ≠ some '/' ∧
    ∃ vs ws n,
      analyzeSource .javaScript {} RuleSet.standardRules (.ofString "a.js")
        (commented "/** a */ f(".toList " b ".toList "x) /** c */ function(".toList) = .ok vs ∧
      analyzeSource .javaScript {} RuleSet.standardRules (.ofString "a.js")
        (commented "/** a */ f(".toList "), ' function(/** @d *".toList "x) /** c */ function(".toList) = .ok ws ∧
      ((FileView.mk (.ofString "a.js") (.ofSource (commented "/** a */ f(".toList " b ".toList
        "x) /** c */ function(".toList))).accounts vs).eraseIdx n =
      ((FileView.mk (.ofString "a.js") (.ofSource (commented "/** a */ f(".toList "), ' function(/** @d *".toList
        "x) /** c */ function(".toList))).accounts ws).eraseIdx n := by
  have h : RuleSet.ofConfig {} = .ok RuleSet.standardRules := RuleSet.standard_eq
  have hdoc : IsDocComment "/** a */ f(".toList " b ".toList "x) /** c */ function(".toList := by decide +kernel
  have hclose : ¬ closing <:+: "), ' function(/** @d *".toList := by decide +kernel
  have hslash : "), ' function(/** @d *".toList.head? ≠ some '/' := by decide +kernel
  obtain ⟨vs, ws, n, hvs, hws, -, -, hsame, -⟩ := analyzeSource_commented h (.ofString "a.js") hdoc hclose hslash
  exact ⟨h, hdoc, hclose, hslash, vs, ws, n, hvs, hws, hsame⟩

end DocLint
