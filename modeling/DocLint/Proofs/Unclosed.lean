import DocLint.Proofs.SameFindings

/-!
# Comments that are never closed

Whether a comment is closed is decided twice: when a script is cut into slices, by the first `*/` after the opening,
and when a comment is cut into pieces, by the `*/` at its end.  Both agree, so the tokens of a script are code and doc
comments, every comment has a block unless the script ends in it, and at most one unclosed comment is reported.
-/
namespace DocLint

open DocComment (opening closing)

/-- A doc comment of the script is never closed. -/
def LeftOpen (source : List Char) : Prop :=
  ∃ d ∈ commentsOf .doc source, ∃ inner, d.2 = opening ++ inner ∧ ¬ closing <:+: inner

namespace Slice

theorem map_snd_spread (p : Position) (ss : List Slice) : (spread p ss).map Prod.snd = ss := by
  induction ss generalizing p with
  | nil => rfl
  | cons s ss ih => rw [spread, List.map_cons, ih]

/-- Every doc comment among the slices is closed. -/
def AllClosed (ss : List Slice) : Prop := ∀ s ∈ ss, s.cls = .doc → ∃ body, s.text = opening ++ (body ++ closing)

theorem AllClosed.cons {s : Slice} {ss : List Slice} (hs : s.cls = .doc → ∃ body, s.text = opening ++ (body ++ closing))
    (h : AllClosed ss) : AllClosed (s :: ss) := by
  intro t ht
  cases ht with
  | head => exact hs
  | tail _ ht => exact h t ht

/-- The slices of a script end in a comment that is left open, or there is none. -/
theorem Readable.allClosed_or {ss : List Slice} (h : Readable ss) :
    AllClosed ss ∨
      ∃ before inner, ss = before ++ [⟨.doc, opening ++ inner⟩] ∧ AllClosed before ∧ ¬ closing <:+: inner := by
  -- A slice in front of the others changes nothing, as long as it is no open comment.
  have step : ∀ {s : Slice} {ss : List Slice}, (s.cls = .doc → ∃ body, s.text = opening ++ (body ++ closing)) →
      (AllClosed ss ∨ ∃ before inner, ss = before ++ [⟨.doc, opening ++ inner⟩] ∧ AllClosed before ∧
        ¬ closing <:+: inner) →
      AllClosed (s :: ss) ∨ ∃ before inner, s :: ss = before ++ [⟨.doc, opening ++ inner⟩] ∧ AllClosed before ∧
        ¬ closing <:+: inner := by
    intro s ss hs h
    cases h with
    | inl h => exact .inl (h.cons hs)
    | inr h =>
      obtain ⟨before, inner, rfl, hb, never⟩ := h
      exact .inr ⟨s :: before, inner, rfl, hb.cons hs, never⟩
  induction h with
  | nil => exact .inl (by simp [AllClosed])
  | code _ _ ih => exact step (by simp) ih
  | dropped _ ih => exact step (by simp) ih
  | @closed body _ _ ih => exact step (fun _ => ⟨body, rfl⟩) ih
  | @unclosed inner never => exact .inr ⟨[], inner, rfl, by simp [AllClosed], never⟩

/-- The doc comments among some slices, each with what it says. -/
def docContents (ss : List Slice) : List (Option Contents) :=
  (ss.filter (·.cls = .doc)).map fun s => DocComment.contents? s.text

theorem AllClosed.isSome_of_mem {ss : List Slice} (h : AllClosed ss) {x : Option Contents} (hx : x ∈ docContents ss) :
    x.isSome = true := by
  obtain ⟨s, hs, rfl⟩ := List.mem_map.1 hx
  obtain ⟨hmem, hcls⟩ := List.mem_filter.1 hs
  obtain ⟨body, hbody⟩ := h s hmem (of_decide_eq_true hcls)
  rw [hbody, DocComment.contents?_closed]
  rfl

theorem map_contents_sites (before : List Kind) (p : Position) (ss : List Slice) :
    (Landmark.sites before (landmarks p ss)).map Site.contents = docContents ss := by
  induction ss generalizing before p with
  | nil => rfl
  | cons s ss ih =>
    obtain ⟨cls, text⟩ := s
    rw [docContents] at ih
    rw [landmarks, docContents, List.filter_cons]
    cases cls with
    | token k =>
      by_cases hk : k.isCode = true
      · simpa [landmark?, hk, Landmark.sites] using ih _ _
      · simpa [landmark?, hk] using ih _ _
    | doc => simpa [landmark?, Landmark.sites] using ih _ _
    | dropped => exact ih _ _

end Slice

theorem leftOpen_iff {source : List Char} : LeftOpen source ↔
    ∃ s ∈ Slice.ofText source, s.cls = .doc ∧ ∃ inner, s.text = opening ++ inner ∧ ¬ closing <:+: inner := by
  constructor
  · rintro ⟨d, hd, h⟩
    have hmem := List.mem_map_of_mem (f := Prod.snd) (mem_commentsOf.1 hd)
    rw [Slice.map_snd_spread] at hmem
    exact ⟨_, hmem, rfl, h⟩
  · rintro ⟨s, hs, hcls, h⟩
    rw [← Slice.map_snd_spread .start (Slice.ofText source)] at hs
    obtain ⟨x, hx, rfl⟩ := List.mem_map.1 hs
    exact ⟨(x.1, x.2.text), mem_commentsOf.2 (by rw [← hcls]; exact hx), h⟩

/-- What the comments of a script say. -/
theorem map_extract_openers (source : List Char) :
    (Stream.ofSource source).openers.map (fun o => (Block.extract (.ofSource source) o).toOption.map Block.contents) =
      Slice.docContents (Slice.ofText (withoutByteOrderMark source)) := by
  have h := congrArg (List.map Site.contents) (FileView.sites_ofSource (.ofString "") source)
  rw [landmarksOf, Slice.map_contents_sites, FileView.sites, List.map_map] at h
  exact h

/-- A comment that stands for a closed one has its block. -/
theorem exists_extract_eq_ok {s : Stream} {os : List Nat} {ss : List Slice} (hall : Slice.AllClosed ss)
    (h : os.map (fun o => (Block.extract s o).toOption.map Block.contents) = Slice.docContents ss) {o : Nat}
    (ho : o ∈ os) : ∃ b, Block.extract s o = .ok b := by
  have hmem : (Block.extract s o).toOption.map Block.contents ∈ Slice.docContents ss := by
    rw [← h]
    exact List.mem_map.2 ⟨o, ho, rfl⟩
  have hsome := hall.isSome_of_mem hmem
  cases he : Block.extract s o with
  | ok b => exact ⟨b, rfl⟩
  | error e =>
    rw [he] at hsome
    cases hsome

theorem not_leftOpen_of_allClosed {source : List Char} (hall : Slice.AllClosed (Slice.ofText source)) :
    ¬ LeftOpen source := by
  rw [leftOpen_iff]
  rintro ⟨s, hs, hcls, inner, htext, never⟩
  obtain ⟨body, hbody⟩ := hall s hs hcls
  obtain rfl : inner = body ++ closing := List.append_cancel_left (htext.symm.trans hbody)
  exact never (List.suffix_append body closing).isInfix

/-- Where a script ends in a doc comment, its tokens end in those of the comment. -/
theorem exists_ofSource_eq {source inner : List Char} {before : List Slice}
    (h : Slice.ofText (withoutByteOrderMark source) = before ++ [⟨.doc, opening ++ inner⟩]) :
    ∃ ts q, Stream.ofSource source = .ofTokens (ts ++ DocComment.tokensAt q inner) ∧
      (Stream.ofSource source).openers = Stream.openPositions 0 ts ++ [ts.length] := by
  have hlex : lex (withoutByteOrderMark source) = Slice.layout .start before ++
      DocComment.tokensAt (Position.start.advance (before.flatMap Slice.text)) inner := by
    rw [lex, h, Slice.layout_append]
    exact congrArg _ (List.append_nil _)
  refine ⟨_, _, by rw [Stream.ofSource, hlex], ?_⟩
  rw [Stream.ofSource, hlex, Stream.openers_ofTokens, Stream.openPositions_append, Nat.zero_add,
    DocComment.openPositions_tokensAt]

/-- Either every comment of a script has its block, or the last one is left open and has none. -/
theorem extract_openers (source : List Char) :
    (¬ LeftOpen (withoutByteOrderMark source) ∧
      ∀ o ∈ (Stream.ofSource source).openers, ∃ b, Block.extract (.ofSource source) o = .ok b) ∨
    (LeftOpen (withoutByteOrderMark source) ∧ ∃ os o, (Stream.ofSource source).openers = os ++ [o] ∧
      (∀ o ∈ os, ∃ b, Block.extract (.ofSource source) o = .ok b) ∧
      Block.extract (.ofSource source) o = .error ⟨o⟩ ∧
      ∀ t ∈ (Stream.ofSource source).tokens.drop o, t.kind.isDoc = true) := by
  have hsaid := map_extract_openers source
  cases (Slice.readable_ofText (withoutByteOrderMark source)).allClosed_or with
  | inl hall => exact .inl ⟨not_leftOpen_of_allClosed hall, fun o ho => exists_extract_eq_ok hall hsaid ho⟩
  | inr hlast =>
    obtain ⟨before, inner, hss, hall, never⟩ := hlast
    obtain ⟨ts, q, hstream, hopeners⟩ := exists_ofSource_eq hss
    have hopen : LeftOpen (withoutByteOrderMark source) :=
      leftOpen_iff.2 ⟨⟨.doc, opening ++ inner⟩, by simp [hss], rfl, inner, rfl, never⟩
    refine .inr ⟨hopen, _, _, hopeners, fun o ho => exists_extract_eq_ok hall ?_ ho, ?_, ?_⟩
    · have hdoc : Slice.docContents (before ++ [⟨.doc, opening ++ inner⟩]) =
          Slice.docContents before ++ [DocComment.contents? (opening ++ inner)] := by
        simp [Slice.docContents]
      rw [hss, hdoc, hopeners, List.map_append] at hsaid
      exact (List.append_inj' hsaid rfl).1
    · rw [hstream, DocComment.tokensAt, DocComment.pieces_unclosed never, Piece.place]
      exact Stream.extract_unclosed rfl
        (fun _ hu => DocComment.ne_of_mem_innerKinds (DocComment.kind_of_mem_place hu)) _
    · obtain ⟨us, hus, hdoc⟩ := DocComment.exists_tokensAt q inner
      intro t ht
      rw [hstream, Stream.ofTokens, List.drop_left, hus] at ht
      cases ht with
      | head => rfl
      | tail _ ht => exact (hdoc t ht).1

namespace FileView

variable {f : FileView} {c : Config} {rules : RuleSet} {o : Nat}

theorem filter_findingsAt_of_ok (ht : rules.Telling) {b : Block} (h : Block.extract f.stream o = .ok b) :
    (f.findingsAt c rules o).filter (·.code == "YD000") = [] := by
  refine List.filter_eq_nil_iff.2 fun v hv => ?_
  rw [findingsAt, h] at hv
  simpa using (code_of_mem_blockViolations ht hv).1

theorem length_findingsAt_le_of_error {e : UnclosedComment} (h : Block.extract f.stream o = .error e) :
    (f.findingsAt c rules o).length ≤ 1 := by
  rw [findingsAt, h]
  simp only [Config.adjust]
  split
  · split <;> simp
  · simp

/-- Unclosed comments are found at comments. -/
theorem filter_analyze_perm (ht : rules.Telling) : ((f.analyze c rules).filter (·.code == "YD000")).Perm
    (f.stream.openers.flatMap fun o => (f.findingsAt c rules o).filter (·.code == "YD000")) := by
  have hperm := ((Violation.sorted_perm _).trans (f.found_perm c rules)).filter (·.code == "YD000")
  have hfile : ∀ v ∈ f.fileViolations c rules, ¬ (v.code == "YD000") = true := by
    intro v hv
    rw [code_of_mem_fileViolations ht hv]
    decide
  rw [List.filter_append, List.filter_eq_nil_iff.2 hfile, List.append_nil, commentFindings,
    List.filter_flatMap] at hperm
  exact hperm

/-- If every comment but the last has its block, one unclosed comment at most is reported, and it is the last one. -/
theorem unclosed_reported (ht : rules.Telling)
    (hok : ∀ o ∈ f.stream.openers.dropLast, ∃ b, Block.extract f.stream o = .ok b) :
    ((f.analyze c rules).filter (·.code == "YD000")).length ≤ 1 ∧
    ∀ v ∈ f.analyze c rules, v.code = "YD000" → ∃ o, f.stream.openers.getLast? = some o ∧
      (∃ e, Block.extract f.stream o = .error e) ∧ v.location = f.location o := by
  have hperm := filter_analyze_perm (f := f) (c := c) ht
  have hmem : ∀ v ∈ f.analyze c rules, v.code = "YD000" → v ∈ (f.analyze c rules).filter (·.code == "YD000") := by
    intro v hv hcode
    exact List.mem_filter.2 ⟨hv, by simp [hcode]⟩
  generalize (f.analyze c rules).filter (·.code == "YD000") = vs at hperm hmem ⊢
  generalize f.stream.openers = os at hok hperm ⊢
  cases List.eq_nil_or_concat os with
  | inl hnil =>
    rw [hnil, List.flatMap_nil] at hperm
    obtain rfl := hperm.eq_nil
    exact ⟨Nat.zero_le _, fun v hv hcode => absurd (hmem v hv hcode) (by simp)⟩
  | inr hlast =>
    obtain ⟨os, o, rfl⟩ := hlast
    rw [List.concat_eq_append] at hok hperm ⊢
    rw [List.dropLast_concat] at hok
    have hbefore : os.flatMap (fun o => (f.findingsAt c rules o).filter (·.code == "YD000")) = [] := by
      refine List.flatMap_eq_nil_iff.2 fun p hp => ?_
      obtain ⟨b, hb⟩ := hok p hp
      exact filter_findingsAt_of_ok ht hb
    rw [List.flatMap_append, hbefore, List.nil_append, List.flatMap_singleton] at hperm
    cases he : Block.extract f.stream o with
    | ok b =>
      rw [filter_findingsAt_of_ok ht he] at hperm
      obtain rfl := hperm.eq_nil
      exact ⟨Nat.zero_le _, fun v hv hcode => absurd (hmem v hv hcode) (by simp)⟩
    | error e =>
      refine ⟨?_, fun v hv hcode => ⟨o, List.getLast?_concat, ⟨e, he⟩, ?_⟩⟩
      · rw [hperm.length_eq]
        exact Nat.le_trans (List.length_filter_le _ _) (length_findingsAt_le_of_error he)
      · have hv := hperm.mem_iff.1 (hmem v hv hcode)
        exact location_of_mem_findingsAt ht (List.mem_filter.1 hv).1

end FileView

/-- The tokens of a script are code and doc comments.  Every comment but the last has its block, the last one lacks it
if the script leaves a comment open, and one unclosed comment at most is reported, at the last opener, with nothing but
the comment after it. -/
theorem unclosed_only_at_end {c : Config} {rules : RuleSet} (h : RuleSet.ofConfig c = .ok rules) (path : Path)
    (source : List Char) :
    Grouped (Stream.ofSource source).tokens ∧
    (∀ o ∈ (Stream.ofSource source).openers.dropLast, ∃ b, Block.extract (.ofSource source) o = .ok b) ∧
    ((∃ o, (Stream.ofSource source).openers.getLast? = some o ∧ Block.extract (.ofSource source) o = .error ⟨o⟩) ↔
      LeftOpen (withoutByteOrderMark source)) ∧
    ∃ vs, analyzeSource .javaScript c rules path source = .ok vs ∧ (vs.filter (·.code == "YD000")).length ≤ 1 ∧
      ∀ v ∈ vs, v.code = "YD000" → ∃ o, (Stream.ofSource source).openers.getLast? = some o ∧
        v.location = (FileView.mk path (.ofSource source)).location o ∧
        ∀ t ∈ (Stream.ofSource source).tokens.drop o, t.kind.isDoc = true := by
  have ht := RuleSet.telling_ofConfig h
  refine ⟨(Slice.readable_ofText _).grouped .start, ?_⟩
  cases extract_openers source with
  | inl hall =>
    obtain ⟨hclosed, hok⟩ := hall
    have hblocks : ∀ o ∈ (Stream.ofSource source).openers.dropLast, ∃ b, Block.extract (.ofSource source) o = .ok b :=
      fun o ho => hok o ((List.dropLast_sublist _).subset ho)
    have hlast : ∀ o e, (Stream.ofSource source).openers.getLast? = some o →
        Block.extract (.ofSource source) o ≠ .error e := by
      intro o e ho he
      obtain ⟨b, hb⟩ := hok o (List.mem_of_getLast? ho)
      rw [hb] at he
      cases he
    obtain ⟨hone, hreported⟩ := FileView.unclosed_reported (f := .mk path (.ofSource source)) (c := c) ht hblocks
    refine ⟨hblocks, ⟨?_, fun hopen => absurd hopen hclosed⟩, _, rfl, hone, fun v hv hcode => ?_⟩
    · rintro ⟨o, ho, he⟩
      exact absurd he (hlast o _ ho)
    · obtain ⟨o, ho, ⟨e, he⟩, -⟩ := hreported v hv hcode
      exact absurd he (hlast o e ho)
  | inr hopen =>
    obtain ⟨hopen, os, o, hopeners, hok, herror, hdoc⟩ := hopen
    have hgetLast : (Stream.ofSource source).openers.getLast? = some o := by simp [hopeners]
    have hblocks : ∀ o ∈ (Stream.ofSource source).openers.dropLast,
        ∃ b, Block.extract (.ofSource source) o = .ok b := by
      rw [hopeners, List.dropLast_concat]
      exact hok
    obtain ⟨hone, hreported⟩ := FileView.unclosed_reported (f := .mk path (.ofSource source)) (c := c) ht hblocks
    refine ⟨hblocks, ⟨fun _ => hopen, fun _ => ⟨o, hgetLast, herror⟩⟩, _, rfl, hone, fun v hv hcode => ?_⟩
    obtain ⟨p, hp, -, hlocation⟩ := hreported v hv hcode
    obtain rfl : o = p := Option.some.inj (hgetLast.symm.trans hp)
    exact ⟨o, hp, hlocation, hdoc⟩

/-- The second of two comments is left open: it has no block, and it is reported once, where it opens. -/
theorem unclosed_only_at_end_of_two_comments :
    RuleSet.ofConfig {} = .ok RuleSet.standardRules ∧
    Grouped (Stream.ofSource "/** a */ f(/** b".toList).tokens ∧ LeftOpen "/** a */ f(/** b".toList ∧
    (∃ o, (Stream.ofSource "/** a */ f(/** b".toList).openers.getLast? = some o ∧
      Block.extract (.ofSource "/** a */ f(/** b".toList) o = .error ⟨o⟩) ∧
    ∃ vs v, analyzeSource .javaScript {} RuleSet.standardRules (.ofString "a.js") "/** a */ f(/** b".toList = .ok vs ∧
      vs.filter (·.code == "YD000") = [v] ∧ v.location = ⟨.ofString "a.js", 1, 12, 11, 3⟩ := by
  have h : RuleSet.ofConfig {} = .ok RuleSet.standardRules := RuleSet.standard_eq
  obtain ⟨hgrouped, -, hopen, vs, hvs, hone, -⟩ :=
    unclosed_only_at_end h (.ofString "a.js") "/** a */ f(/** b".toList
  have hcomment : (⟨1, 12, 11⟩, "/** b".toList) ∈ commentsOf .doc "/** a */ f(/** b".toList := by decide +kernel
  have hleft : LeftOpen "/** a */ f(/** b".toList := ⟨_, hcomment, " b".toList, rfl, by decide⟩
  have hlocation : (FileView.mk (.ofString "a.js") (.ofSource "/** a */ f(/** b".toList)).location 8 =
      ⟨.ofString "a.js", 1, 12, 11, 3⟩ := by
    decide +kernel
  have hmem : (FileView.mk (.ofString "a.js") (.ofSource "/** a */ f(/** b".toList)).unclosedViolation 8 ∈ vs := by
    cases hvs
    exact FileView.unclosedViolation_mem_analyze RuleSet.standardRules (by decide +kernel)
  have hreported : FileView.unclosedViolation _ 8 ∈ vs.filter (·.code == "YD000") := List.mem_filter.2 ⟨hmem, rfl⟩
  -- At most one is reported, and this one is.
  obtain ⟨v, hv⟩ := List.length_eq_one_iff.1 (Nat.le_antisymm hone (List.length_pos_of_mem hreported))
  rw [hv, List.mem_singleton] at hreported
  exact ⟨h, hgrouped, hleft, hopen.2 hleft, vs, v, hvs, hv, hreported ▸ hlocation⟩

end DocLint
