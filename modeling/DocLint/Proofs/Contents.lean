import Mathlib.Data.List.Basic
import DocLint.Proofs.Occurrence
import DocLint.Proofs.Subject

/-!
# What a block says

A block holds the positions of its marks, texts and tags in a stream.  Its contents are the same without positions:
how many marks there are, and the texts and tags with the lines on which they stand.  A rule finds the same in all
blocks that have the same contents and document the same, and reports it where the block opens.
-/
namespace DocLint

/-- What a block says.  In place of its position, a text or a tag has the line on which it stands. -/
structure Contents where
  marks : Nat := 0
  prose : List Prose := []
  tags : List BlockTag := []
  deriving DecidableEq, Repr

namespace Contents

/-- Contents with one more piece of the comment. -/
def read (c : Contents) (p : Piece) : Contents :=
  match p.kind with
  | .docStar => { c with marks := c.marks + 1 }
  | .docTag => { c with tags := c.tags ++ [⟨c.marks, String.ofList p.text, ""⟩] }
  | .docString =>
    if c.tags.isEmpty then { c with prose := c.prose ++ [⟨c.marks, String.ofList p.text⟩] }
    else { c with tags := BlockTag.extendLast c.tags (String.ofList p.text) }
  | _ => c

def ofPieces (ps : List Piece) : Contents := ps.foldl read {}

theorem read_silent {p : Piece} (hk : Block.isSilent p.kind = true) (c : Contents) : c.read p = c := by
  cases h : p.kind <;> simp_all [read, Block.isSilent]

/-- The pieces that are read: marks, tags and texts. -/
def heard (ps : List Piece) : List Piece := ps.filter fun p => !Block.isSilent p.kind

@[simp] theorem heard_append (ps qs : List Piece) : heard (ps ++ qs) = heard ps ++ heard qs := by
  simp [heard]

/-- Pieces that are not read add nothing. -/
theorem ofPieces_heard (ps : List Piece) : ofPieces (heard ps) = ofPieces ps := by
  suffices h : ∀ c : Contents, (heard ps).foldl read c = ps.foldl read c from h {}
  induction ps with
  | nil => intro c; rfl
  | cons p ps ih =>
    intro c
    rw [heard, List.filter_cons, List.foldl_cons]
    by_cases hk : Block.isSilent p.kind = true
    · simp only [hk, Bool.not_true, Bool.false_eq_true, if_false, read_silent hk]
      exact ih c
    · simp only [hk, Bool.not_false, if_true, List.foldl_cons]
      exact ih (c.read p)

end Contents

/-- More text for the last tag changes nothing else of it. -/
theorem BlockTag.extendLast_map {f : BlockTag → BlockTag}
    (hf : ∀ (t : BlockTag) text, f (t.extend text) = (f t).extend text) (ts : List BlockTag)
    (text : String) : (extendLast ts text).map f = extendLast (ts.map f) text := by
  fun_induction extendLast ts text with
  | case1 => rfl
  | case2 t text => simp [extendLast, hf]
  | case3 t ts text h ih =>
    cases ts with
    | nil => exact absurd rfl h
    | cons u ts => simp only [List.map_cons, extendLast] at ih ⊢; rw [ih]

namespace Block

variable {b : Block} {i : Nat} {t : Token} {tags : List Nat}

def contents (b : Block) : Contents where
  marks := b.marks.length
  prose := b.prose.map fun p => { p with pos := b.line p.pos }
  tags := b.tags.map fun t => { t with pos := b.line t.pos }

/-- One more token adds one piece to the contents. -/
theorem Ordered.contents_read (h : b.Ordered i) (ht : t.kind = .docTag → i ∈ tags) :
    (b.read tags (i, t)).contents = b.contents.read t.piece := by
  have hempty : b.contents.tags.isEmpty = b.tags.isEmpty := by simp [contents]
  have htext : String.ofList t.piece.text = t.text := by simp [Token.piece]
  have hkind : t.piece.kind = t.kind := rfl
  rcases kind_cases t.kind with hk | hk | hk | hk
  · have hprose : b.prose.map (fun p => { p with pos := ({ b with marks := b.marks ++ [i] } : Block).line p.pos }) =
        b.contents.prose :=
      List.map_congr_left fun p hp => by rw [line_mark (Nat.le_of_lt (h.prose p hp))]
    have htags : b.tags.map (fun t => { t with pos := ({ b with marks := b.marks ++ [i] } : Block).line t.pos }) =
        b.contents.tags :=
      List.map_congr_left fun t ht => by rw [line_mark (Nat.le_of_lt (h.tags t ht))]
    rw [read_star hk, Contents.read, hkind, hk]
    simp only [contents, hprose, htags, List.length_append, List.length_singleton]
  · rw [read_tag hk (ht hk), Contents.read, hkind, hk, htext]
    simp only [contents, List.map_append, List.map_cons, List.map_nil, ← h.line_next]
    rfl
  · by_cases he : b.tags = []
    · have he' : b.contents.tags.isEmpty = true := by simp [hempty, he]
      rw [read_prose hk he, Contents.read, hkind, hk, htext]
      simp only [he', if_true]
      simp only [contents, List.map_append, List.map_cons, List.map_nil, ← h.line_next]
      rfl
    · have he' : b.contents.tags.isEmpty = false := by simp [hempty, he]
      rw [read_body hk he, Contents.read, hkind, hk, htext]
      simp only [he', Bool.false_eq_true, if_false]
      simp only [contents]
      rw [BlockTag.extendLast_map fun _ _ => rfl]
      rfl
  · rw [read_silent hk, Contents.read_silent hk]

/-- The contents of what is read are the pieces of the tokens, one after another. -/
theorem Ordered.contents_readFrom (h : b.Ordered i) {ts : List Token} (ht : ∀ p ∈ tagPositions i ts, p ∈ tags) :
    (Block.readFrom tags i b ts).contents = (ts.map Token.piece).foldl Contents.read b.contents := by
  induction ts generalizing b i with
  | nil => rfl
  | cons t ts ih =>
    obtain ⟨hhead, htail⟩ := mem_tagPositions_cons ht
    rw [Block.readFrom, ih (h.read tags t) htail, h.contents_read hhead, List.map_cons, List.foldl_cons]

/-- Whatever is read from a stream is in order. -/
theorem exists_ordered_of_extract {s : Stream} {o : Nat} (h : Block.extract s o = .ok b) : ∃ next, b.Ordered next := by
  unfold Block.extract at h
  split at h
  · split at h
    · obtain rfl := Except.ok.inj h
      rw [Stream.between, foldl_read_zipIdx]
      exact ⟨_, (ordered_empty _ _ _).readFrom _ _⟩
    · cases h
  · cases h

end Block

theorem Stream.ClosedComment.contents_block (d : ClosedComment) (o : Nat) :
    (d.block o).contents = .ofPieces (d.inner.map Token.piece) :=
  (Block.ordered_empty _ _ _).contents_readFrom fun _ h => h

/-! ## Findings in blocks with the same contents -/

section SameContents

variable {b b' : Block}

theorem Block.proseLines_eq (b : Block) : b.proseLines = b.contents.prose.map Prose.pos := by
  simp [proseLines, contents]

theorem Block.tagLines_eq (b : Block) : b.tagLines = b.contents.tags.map fun t => (t.pos, t.name) := by
  simp [tagLines, contents]

theorem Block.tagNames_eq (b : Block) : b.tags.map BlockTag.name = b.contents.tags.map BlockTag.name := by
  simp [contents]

theorem Spacing.check_eq_of_contents {m n : Nat} (h : b.Ordered m) (h' : b'.Ordered n) (hc : b.contents = b'.contents)
    (policy : Policy) : check policy b = check policy b' := by
  rw [check_eq_checkLines h, check_eq_checkLines h', b.proseLines_eq, b'.proseLines_eq, b.tagLines_eq, b'.tagLines_eq,
    hc]

theorem Block.tagCount_eq_of_contents (hc : b.contents = b'.contents) (name : String) :
    b.tagCount name = b'.tagCount name := by
  have count : ∀ b : Block, b.tagCount name = (b.tags.map BlockTag.name).countP (· == name) := by
    intro b
    rw [List.countP_map]
    rfl
  rw [count, count, b.tagNames_eq, b'.tagNames_eq, hc]

end SameContents

namespace Occurrences

/-- The same tags are present, and they come in the same order. -/
structure Like (os os' : Occurrences) : Prop where
  present : ∀ name, (os.first? name).isSome = (os'.first? name).isSome
  order : ∀ {m n : String} {p q p' q' : Nat}, os.first? m = some p → os.first? n = some q →
    os'.first? m = some p' → os'.first? n = some q' → (p < q ↔ p' < q')

theorem Like.contains_eq {os os' : Occurrences} (h : os.Like os') (name : String) :
    os.contains name = os'.contains name := by
  rw [Occurrences.contains_eq, Occurrences.contains_eq, h.present]

theorem find?_isSome_eq (ts : List BlockTag) (name : String) :
    (ts.find? fun t => t.name == name).isSome = (ts.map BlockTag.name).any (· == name) := by
  rw [Bool.eq_iff_iff, List.find?_isSome, List.any_map, List.any_eq_true]
  rfl

/-- In lists with the same names, both in order, the first tags of two names come in the same order. -/
theorem pos_lt_iff {ts ts' : List BlockTag} (hn : ts.map BlockTag.name = ts'.map BlockTag.name)
    (hr : ts.Pairwise fun t u => t.pos < u.pos) (hr' : ts'.Pairwise fun t u => t.pos < u.pos) {m n : String}
    {t u t' u' : BlockTag} (ht : ts.find? (·.name == m) = some t) (hu : ts.find? (·.name == n) = some u)
    (ht' : ts'.find? (·.name == m) = some t') (hu' : ts'.find? (·.name == n) = some u') :
    t.pos < u.pos ↔ t'.pos < u'.pos := by
  induction ts generalizing ts' with
  | nil => cases ht
  | cons a ts ih =>
    obtain ⟨a', ts', rfl, ha, hts⟩ := List.map_eq_cons_iff.1 hn.symm
    obtain ⟨hlt, hr⟩ := List.pairwise_cons.1 hr
    obtain ⟨hlt', hr'⟩ := List.pairwise_cons.1 hr'
    rw [List.find?_cons] at ht hu ht' hu'
    rw [ha] at ht' hu'
    by_cases hm : (a.name == m) = true
    · by_cases hn : (a.name == n) = true
      · simp only [hm, hn, Option.some.injEq] at ht hu ht' hu'
        rw [← ht, ← hu, ← ht', ← hu']
        exact ⟨fun h => absurd h (Nat.lt_irrefl _), fun h => absurd h (Nat.lt_irrefl _)⟩
      · simp only [hm, hn, Option.some.injEq] at ht hu ht' hu'
        rw [← ht, ← ht']
        have hau := hlt u (List.mem_of_find?_eq_some hu)
        have hau' := hlt' u' (List.mem_of_find?_eq_some hu')
        exact ⟨fun _ => hau', fun _ => hau⟩
    · by_cases hn : (a.name == n) = true
      · simp only [hm, hn, Option.some.injEq] at ht hu ht' hu'
        rw [← hu, ← hu']
        have hat := hlt t (List.mem_of_find?_eq_some ht)
        have hat' := hlt' t' (List.mem_of_find?_eq_some ht')
        constructor
        · intro h
          omega
        · intro h
          omega
      · simp only [hm, hn] at ht hu ht' hu'
        exact ih hts.symm hr hr' ht hu ht' hu'

theorem like_ofBlock {b b' : Block} (hn : b.tags.map BlockTag.name = b'.tags.map BlockTag.name)
    (hr : b.tags.Pairwise fun t u => t.pos < u.pos) (hr' : b'.tags.Pairwise fun t u => t.pos < u.pos)
    (relevant : List String) : (ofBlock relevant b).Like (ofBlock relevant b') where
  present name := by
    rw [first?_ofBlock, first?_ofBlock]
    split
    · rw [Option.isSome_map, Option.isSome_map, find?_isSome_eq, find?_isSome_eq, hn]
    · rfl
  order := by
    intro m n p q p' q' hp hq hp' hq'
    rw [first?_ofBlock] at hp hq hp' hq'
    split at hp
    · next hm =>
      split at hq
      · next hrn =>
        rw [if_pos hm] at hp'
        rw [if_pos hrn] at hq'
        obtain ⟨t, ht, rfl⟩ := Option.map_eq_some_iff.1 hp
        obtain ⟨u, hu, rfl⟩ := Option.map_eq_some_iff.1 hq
        obtain ⟨t', ht', rfl⟩ := Option.map_eq_some_iff.1 hp'
        obtain ⟨u', hu', rfl⟩ := Option.map_eq_some_iff.1 hq'
        exact pos_lt_iff hn hr hr' ht hu ht' hu'
      · cases hq
    · cases hp

end Occurrences

namespace TagRule

variable {os os' : Occurrences}

/-- A position is past the least of some others if it is past one of them. -/
theorem min?_lt_iff {ps : List Nat} {least pos : Nat} (h : ps.min? = some least) :
    least < pos ↔ ∃ p ∈ ps, p < pos := by
  obtain ⟨hmem, hle⟩ := List.min?_eq_some_iff.1 h
  constructor
  · exact fun hlt => ⟨least, hmem, hlt⟩
  · rintro ⟨p, hp, hlt⟩
    exact Nat.lt_of_le_of_lt (hle p hp) hlt

/-- Some rival stands before `pos`. -/
def rivalBefore (os : Occurrences) (rivals : List TagName) (pos : Nat) : Bool :=
  rivals.any fun t => (os.first? t.text).any (· < pos)

theorem checkAnchor_eq (r : TagRule) (os : Occurrences) {anchor : TagName} (ha : r.anchor = some anchor) :
    r.checkAnchor os = match os.first? anchor.text with
      | some pos => if rivalBefore os (r.presentRivals os anchor) pos then
          [.anchorOrder anchor (r.presentRivals os anchor)] else []
      | none => [] := by
  unfold checkAnchor
  rw [ha]
  simp only
  cases os.first? anchor.text with
  | none => rfl
  | some pos =>
    have hany : rivalBefore os (r.presentRivals os anchor) pos = true ↔
        ∃ p ∈ (r.presentRivals os anchor).filterMap fun t => os.first? t.text, p < pos := by
      simp only [rivalBefore, List.any_eq_true, Option.any_eq_true, decide_eq_true_eq, List.mem_filterMap]
      constructor
      · rintro ⟨t, ht, p, hp, hlt⟩
        exact ⟨p, ⟨t, ht, hp⟩, hlt⟩
      · rintro ⟨p, ⟨t, ht, hp⟩, hlt⟩
        exact ⟨t, ht, p, hp, hlt⟩
    cases hm : ((r.presentRivals os anchor).filterMap fun t => os.first? t.text).min? with
    | none =>
      have hnone : ¬ rivalBefore os (r.presentRivals os anchor) pos = true := by
        rw [hany, List.min?_eq_none_iff.1 hm]
        simp
      simp only [if_neg hnone]
    | some least => simp only [hany, gt_iff_lt, min?_lt_iff hm]

theorem checkAnchor_like (h : os.Like os') (r : TagRule) : r.checkAnchor os = r.checkAnchor os' := by
  cases ha : r.anchor with
  | none => simp [checkAnchor, ha]
  | some anchor =>
    have hrivals : r.presentRivals os anchor = r.presentRivals os' anchor := by
      simp only [presentRivals, h.contains_eq]
    rw [checkAnchor_eq r os ha, checkAnchor_eq r os' ha, hrivals]
    cases hp : os.first? anchor.text with
    | none =>
      have hnone : os'.first? anchor.text = none := by
        rw [← Option.not_isSome_iff_eq_none, ← h.present, hp]
        exact Bool.false_ne_true
      rw [hnone]
    | some p =>
      obtain ⟨p', hp'⟩ : ∃ p', os'.first? anchor.text = some p' := by
        rw [← Option.isSome_iff_exists, ← h.present, hp]
        rfl
      have hbefore : ∀ t : TagName, (os.first? t.text).any (· < p) = (os'.first? t.text).any (· < p') := by
        intro t
        have hpresent := h.present t.text
        cases hq : os.first? t.text with
        | none =>
          have hnone : os'.first? t.text = none := by
            rw [← Option.not_isSome_iff_eq_none, ← hpresent, hq]
            exact Bool.false_ne_true
          rw [hnone]
          rfl
        | some q =>
          rw [hq] at hpresent
          obtain ⟨q', hq'⟩ := Option.isSome_iff_exists.1 hpresent.symm
          rw [hq']
          exact decide_eq_decide.2 (h.order hq hp hq' hp')
      rw [hp']
      simp only [rivalBefore, hbefore]
      rfl

/-- What is found depends on which tags are present and in which order they come. -/
theorem evaluate_like (h : os.Like os') (r : TagRule) : r.evaluate os = r.evaluate os' := by
  have hgroup : r.checkGroup os = r.checkGroup os' := by
    funext group
    simp only [checkGroup, h.contains_eq]
  simp only [evaluate, missing, hgroup, h.contains_eq, checkAnchor_like h]

theorem checkBlock_eq_of_contents {b b' : Block} {m n : Nat} (h : b.Ordered m) (h' : b'.Ordered n)
    (hc : b.contents = b'.contents) (r : TagRule) : r.checkBlock b = r.checkBlock b' := by
  have hn : b.tags.map BlockTag.name = b'.tags.map BlockTag.name := by rw [b.tagNames_eq, b'.tagNames_eq, hc]
  exact evaluate_like (Occurrences.like_ofBlock hn h.tagsRising h'.tagsRising _) r

end TagRule

/-! ## Rules that look at contents only -/

/-- A violation, found somewhere else. -/
def Violation.at (v : Violation) (l : Location) : Violation := { v with location := l }

/-- Blocks with the same contents that document the same. -/
structure BlockView.Like (v w : BlockView) : Prop where
  subject : v.region.subject v.file.stream = w.region.subject w.file.stream
  contents : v.block.contents = w.block.contents
  ordered : ∃ n, v.block.Ordered n
  ordered' : ∃ n, w.block.Ordered n

/-- A rule finds the same in blocks that are alike, each time where the block opens. -/
def BlockRule.Blind (r : BlockRule) : Prop :=
  ∀ {v w : BlockView}, v.Like w → r.check w = (r.check v).map (·.at w.location)

namespace Rule

theorem appliesTo_eq {s s' : Stream} {region region' : Region} (h : region.subject s = region'.subject s')
    (scope : Scope) : appliesTo scope region = appliesTo scope region' := by
  have bySubject : ∀ (s : Stream) (region : Region), appliesTo scope region = match scope, region.subject s with
      | .anyBlock, _ | .classHeader, .classHeader | .functionHeader, .functionHeader _ => true
      | _, _ => false := by
    intro s region
    cases scope <;> cases region <;> rfl
  rw [bySubject s, bySubject s', h]

theorem blind_headerTags (scope : Scope) (rule : TagRule) : (headerTags scope rule).Blind := by
  intro v w h
  obtain ⟨m, hm⟩ := h.ordered
  obtain ⟨n, hn⟩ := h.ordered'
  simp only [headerTags, appliesTo_eq h.subject scope, TagRule.checkBlock_eq_of_contents hm hn h.contents]
  split
  · rw [List.map_map]
    rfl
  · rfl

theorem spacingViolations_like {v w : BlockView} (h : v.Like w) (info : RuleInfo) (policy : Spacing.Policy) :
    spacingViolations info policy w = (spacingViolations info policy v).map (·.at w.location) := by
  obtain ⟨m, hm⟩ := h.ordered
  obtain ⟨n, hn⟩ := h.ordered'
  rw [spacingViolations, spacingViolations, Spacing.check_eq_of_contents hm hn h.contents, List.map_map]
  rfl

theorem blind_blockSpacing : blockSpacing.Blind := fun h => spacingViolations_like h _ _

theorem blind_headerSpacing : headerSpacing.Blind := by
  intro v w h
  have hs := h.subject
  simp only [headerSpacing]
  cases hv : v.region <;> cases hw : w.region <;> simp only [hv, hw, Region.subject] at hs ⊢
  case classHeader.classHeader => exact spacingViolations_like h _ _
  all_goals first | rfl | cases hs

theorem blind_paramCount : paramCount.Blind := by
  intro v w h
  have hs := h.subject
  simp only [paramCount, Block.tagCount_eq_of_contents h.contents]
  cases hv : v.region <;> cases hw : w.region <;> simp only [hv, hw, Region.subject] at hs ⊢
  case functionHeader.functionHeader =>
    rw [Subject.functionHeader.inj hs]
    split <;> rfl
  all_goals first | rfl | cases hs

end Rule

/-- Every rule of a configuration looks at contents only. -/
theorem RuleSet.blind_ofConfig {c : Config} {rules : RuleSet} (h : ofConfig c = .ok rules) {r : BlockRule}
    (hr : r ∈ rules.blockRules) : r.Blind := by
  rcases mem_blockRules_ofConfig h hr with ⟨scope, rule, rfl⟩ | rfl | rfl | rfl
  · exact Rule.blind_headerTags scope rule
  · exact Rule.blind_blockSpacing
  · exact Rule.blind_headerSpacing
  · exact Rule.blind_paramCount

theorem Config.adjust_map_at (c : Config) (r : RuleInfo) (vs : List Violation) (l : Location) :
    c.adjust r (vs.map (·.at l)) = (c.adjust r vs).map (·.at l) := by
  unfold adjust
  split
  · split
    · simp [Violation.at]
    · rfl
  · rfl

/-- What the rules find in a block is found in every block that is like it. -/
theorem FileView.blockViolations_like {c : Config} {rules : RuleSet} (hblind : ∀ r ∈ rules.blockRules, r.Blind)
    {f g : FileView} {b b' : Block} (h : (f.blockView b).Like (g.blockView b')) :
    g.blockViolations c rules b' = (f.blockViolations c rules b).map (·.at (g.location b'.opener)) := by
  rw [blockViolations, blockViolations, List.map_flatMap]
  refine List.flatMap_congr fun r hr => ?_
  rw [hblind r hr h, c.adjust_map_at]
  rfl

end DocLint
