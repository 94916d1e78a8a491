import DocLint.Proofs.ConformingFile

/-!
# Nothing is found in a conforming file

The comments of a conforming file are those of its header and of its members.  The header is what its tags say, and
each member's comment documents the function of the member, with the parameters that it declares.  So no rule of
the standard set finds anything in such a file.
-/
namespace DocLint

/-! ## What the standard rules ask for -/

namespace FileView

variable {f : FileView} {c : Config} {rules : RuleSet}

theorem adjust_nil (c : Config) (r : RuleInfo) : c.adjust r [] = [] := by
  unfold Config.adjust
  split
  · split <;> rfl
  · rfl

theorem blockViolations_eq_nil {b : Block} (h : ∀ r ∈ rules.blockRules, r.check (f.blockView b) = []) :
    f.blockViolations c rules b = [] := by
  refine List.flatMap_eq_nil_iff.2 fun r hr => ?_
  rw [h r hr, adjust_nil]

/-- Nothing is found if every comment is closed and nothing is found in it, nor in the file as a whole. -/
theorem analyze_eq_nil
    (hblocks : ∀ o ∈ f.stream.openers, ∃ b, Block.extract f.stream o = .ok b ∧ f.blockViolations c rules b = [])
    (hfile : ∀ r ∈ rules.fileRules, r.check f f.blocks = []) : f.analyze c rules = [] := by
  have hunclosed : f.unclosed = [] := by
    refine List.filter_eq_nil_iff.2 fun o ho => ?_
    obtain ⟨b, hb, -⟩ := hblocks o ho
    rw [hb]
    exact Bool.false_ne_true
  have hblock : f.blocks.flatMap (f.blockViolations c rules) = [] := by
    refine List.flatMap_eq_nil_iff.2 fun b hb => ?_
    obtain ⟨ho, hb⟩ := mem_blocks.1 hb
    obtain ⟨b', hb', hnone⟩ := hblocks b.opener ho
    rw [hb] at hb'
    rw [Except.ok.inj hb', hnone]
  have hrest : f.fileViolations c rules = [] := by
    refine List.flatMap_eq_nil_iff.2 fun r hr => ?_
    rw [hfile r hr, adjust_nil]
  rw [analyze, found, hunclosed, hblock, hrest]
  simp [Violation.sorted]

end FileView

namespace RuleSet

variable {v : BlockView}

/-- The header of a class with the right tags in good layout. -/
theorem check_classHeader {n : Nat} (hregion : v.region = .classHeader n)
    (htags : classRule.checkBlock v.block = []) (hlayout : ∀ policy, Spacing.check policy v.block = []) :
    ∀ r ∈ standardRules.blockRules, r.check v = [] := by
  intro r hr
  simp only [standardRules, List.mem_cons, List.not_mem_nil, or_false] at hr
  rcases hr with rfl | rfl | rfl | rfl | rfl
  · simp [Rule.headerTags, htags]
  · simp [Rule.headerTags, Rule.appliesTo, hregion]
  · simp [Rule.blockSpacing, Rule.spacingViolations, hlayout]
  · simp [Rule.headerSpacing, Rule.spacingViolations, hregion, hlayout]
  · simp [Rule.paramCount, hregion]

/-- The comment of a function with the right tags in good layout, one for each parameter. -/
theorem check_functionHeader {n : Nat} (hregion : v.region = .functionHeader n)
    (htags : functionRule.checkBlock v.block = []) (hlayout : ∀ policy, Spacing.check policy v.block = [])
    (hparams : v.file.stream.declaredParams n = v.block.tagCount "@param") :
    ∀ r ∈ standardRules.blockRules, r.check v = [] := by
  intro r hr
  simp only [standardRules, List.mem_cons, List.not_mem_nil, or_false] at hr
  rcases hr with rfl | rfl | rfl | rfl | rfl
  · simp [Rule.headerTags, Rule.appliesTo, hregion]
  · simp [Rule.headerTags, htags]
  · simp [Rule.blockSpacing, Rule.spacingViolations, hlayout]
  · simp [Rule.headerSpacing, hregion]
  · simp [Rule.paramCount, hregion, hparams]

end RuleSet

/-! ## The tokens of a conforming file -/

open DocLint.Stream (Lacks)

namespace Slice

/-- The kinds of the tokens of slices that are one token each. -/
theorem map_kind_layout {ss : List Slice} {ks : List Kind} (h : ss.map Slice.cls = ks.map SliceClass.token)
    (p : Position) : (layout p ss).map Token.kind = ks := by
  induction ss generalizing p ks with
  | nil => rw [List.map_eq_nil_iff.1 h.symm]; rfl
  | cons s ss ih =>
    obtain ⟨k, ks', rfl, hk, hks⟩ := List.map_eq_cons_iff.1 h.symm
    rw [layout, pieces, ← hk, List.map_append, ih hks.symm]
    rfl

end Slice

theorem Stream.lacks_of_map {kinds ks : List Kind} {ts : List Token} (h : ts.map Token.kind = ks)
    (hks : ∀ k ∈ ks, k ∉ kinds) : Lacks kinds ts := by
  intro t ht
  exact hks t.kind (h ▸ List.mem_map_of_mem ht)

theorem Stream.Lacks.append {kinds : List Kind} {ts us : List Token} (ht : Lacks kinds ts) (hu : Lacks kinds us) :
    Lacks kinds (ts ++ us) := by
  intro t h
  rcases List.mem_append.1 h with h | h
  · exact ht t h
  · exact hu t h

theorem Slice.lacks_layout {kinds ks : List Kind} {ss : List Slice} (h : ss.map Slice.cls = ks.map SliceClass.token)
    (hks : ∀ k ∈ ks, k ∉ kinds) (p : Position) : Lacks kinds (layout p ss) :=
  Stream.lacks_of_map (map_kind_layout h p) hks

namespace Conforming

/-- Nothing of a gap is of interest. -/
theorem Gap.lacks (g : Gap) {kinds : List Kind} (h : .whitespace ∉ kinds ∧ .newline ∉ kinds) (p : Position) :
    Lacks kinds (Slice.layout p (Slice.ofText g.chars)) := by
  intro t ht
  refine Slice.kind_of_mem_layout (P := fun k => k ∉ kinds) (fun s hs => ?_) ht
  rcases (Slice.ofText_gap g.blank).2 s hs with hk | hk
  · exact ⟨_, hk, h.1⟩
  · exact ⟨_, hk, h.2⟩

/-- All tokens of a comment are of the kinds that comments have. -/
theorem Comment.lacks (d : Comment) {kinds : List Kind} (h : ∀ k ∈ kinds, k.isDoc = false) (p : Position) :
    Lacks kinds (d.closed p).tokens := by
  have hdoc : ∀ t ∈ (d.closed p).tokens, t.kind.isDoc = true := by
    intro t ht
    rcases List.mem_cons.1 ht with rfl | ht
    · rfl
    · rcases List.mem_append.1 ht with ht | ht
      · obtain ⟨a, x, b, hx, rfl⟩ := Piece.exists_of_mem_place ht
        have hk := DocComment.kind_innerPieces (p := x) (by rw [hx]; simp)
        exact (by decide : ∀ k ∈ DocComment.innerKinds, k.isDoc = true) _ hk
      · rw [List.mem_singleton.1 ht]
        rfl
  intro t ht hk
  have hboth := hdoc t ht
  rw [h t.kind hk] at hboth
  cases hboth

namespace Comment

variable (d : Comment) (p : Position) (o : Nat)

theorem layout_doc (ss : List Slice) :
    Slice.layout p (⟨.doc, d.text⟩ :: ss) = (d.closed p).tokens ++ Slice.layout (p.advance d.text) ss := by
  rw [Slice.layout, Slice.pieces, tokens_closed]

theorem hasTag_closed {name : String} (h : ∃ t ∈ d.tags, t.text = name) :
    ((d.closed p).block o).hasTag name = true := by
  have hany : (((d.closed p).block o).tags.map BlockTag.name).any (· == name) = true := by
    rw [tagNames_closed, List.any_map]
    simpa using h
  rw [List.any_map] at hany
  exact hany

theorem tagCount_closed (name : String) :
    ((d.closed p).block o).tagCount name = d.tags.countP fun t => t.text = name := by
  have hcount := congrArg (List.countP (· == name)) (tagNames_closed d p o)
  rw [List.countP_map, List.countP_map] at hcount
  exact hcount

end Comment

/-- Nothing is found in the comment at position `o`. -/
def Passes (path : Path) (tokens : List Token) (o : Nat) : Prop :=
  ∃ b, Block.extract (.ofTokens tokens) o = .ok b ∧
    (FileView.mk path (.ofTokens tokens)).blockViolations {} RuleSet.standardRules b = []

/-! ## The comments of members -/

theorem map_cls_paramSlices (xs : List Identifier) :
    (paramSlices xs).map Slice.cls = (paramKinds xs.length).map SliceClass.token := by
  induction xs using paramSlices.induct with
  | case1 => rfl
  | case2 x => rfl
  | case3 x y xs ih =>
    have hlen : (x :: y :: xs).length = xs.length + 2 := rfl
    rw [hlen, paramSlices, paramKinds, List.map_cons, List.map_cons, List.map_cons, ih]
    rfl

namespace Member

variable (m : Member)

/-- The kinds of the tokens of a function. -/
theorem map_kind_code (p : Position) :
    (Slice.layout p m.codeSlices).map Token.kind = [.identifier, .other, .whitespace] ++ .functionKeyword ::
      ([.whitespace] ++ .openParen :: (paramKinds m.params.length ++
        .closeParen :: [.whitespace, .openBrace, .closeBrace])) := by
  refine Slice.map_kind_layout ?_ p
  simp only [codeSlices, List.map_append, List.map_cons, map_cls_paramSlices]
  rfl

/-- The comment of a member documents the member's function. -/
theorem classify_comment {tokens before after : List Token} {p q : Position}
    (htokens : tokens = before ++ ((m.comment.closed p).tokens ++
      (Slice.layout q (Slice.ofText m.between.chars ++ m.codeSlices) ++ after)))
    (hb : (Stream.ofTokens tokens).classBoundary ≤ before.length) :
    ∃ marker, (Stream.ofTokens tokens).classify before.length = .functionHeader marker ∧
      (Stream.ofTokens tokens).declaredParams marker = m.params.length := by
  rw [Slice.layout_append] at htokens
  generalize hcode : Slice.layout (q.advance ((Slice.ofText m.between.chars).flatMap Slice.text)) m.codeSlices =
    code at htokens
  have hkinds := m.map_kind_code (q.advance ((Slice.ofText m.between.chars).flatMap Slice.text))
  rw [hcode] at hkinds
  -- The tokens of the function, part by part.
  obtain ⟨lead, code, rfl, hlead, hkinds⟩ := List.map_eq_append_iff.1 hkinds
  obtain ⟨keyword, code, rfl, hkey, hkinds⟩ := List.map_eq_cons_iff.1 hkinds
  obtain ⟨gap, code, rfl, hgap, hkinds⟩ := List.map_eq_append_iff.1 hkinds
  obtain ⟨opening, code, rfl, hopen, hkinds⟩ := List.map_eq_cons_iff.1 hkinds
  obtain ⟨params, code, rfl, hparams, hkinds⟩ := List.map_eq_append_iff.1 hkinds
  obtain ⟨closing, code, rfl, hclose, -⟩ := List.map_eq_cons_iff.1 hkinds
  have hparts : tokens = before ++ (((m.comment.closed p).tokens ++
      (Slice.layout q (Slice.ofText m.between.chars) ++ lead)) ++ keyword ::
        (gap ++ opening :: (params ++ closing :: (code ++ after)))) := by
    rw [htokens]
    simp
  have hlacks : Lacks [.functionKeyword, .comma, .closeBrace] ((m.comment.closed p).tokens ++
      (Slice.layout q (Slice.ofText m.between.chars) ++ lead)) :=
    .append (m.comment.lacks (by decide) p)
      (.append (m.between.lacks (by decide) q) (Stream.lacks_of_map hlead (by decide)))
  have hplain : ∀ u ∈ params, u.kind.closing? = none ∧ u.kind.isClosing = false := by
    intro u hu
    have hu' : u.kind ∈ params.map Token.kind := List.mem_map_of_mem hu
    rw [hparams] at hu'
    exact (by decide : ∀ k ∈ [Kind.identifier, .comma, .whitespace], k.closing? = none ∧ k.isClosing = false) _
      (mem_paramKinds hu')
  have h := Stream.classify_function hparts hb hlacks hkey (Stream.lacks_of_map hgap (by decide)) hopen hclose hplain
  rw [hparams, countSlots_paramKinds] at h
  exact h

theorem passes_comment {tokens before after : List Token} {p q : Position} (path : Path)
    (htokens : tokens = before ++ ((m.comment.closed p).tokens ++
      (Slice.layout q (Slice.ofText m.between.chars ++ m.codeSlices) ++ after)))
    (hb : (Stream.ofTokens tokens).classBoundary ≤ before.length) : Passes path tokens before.length := by
  obtain ⟨marker, hregion, hdeclared⟩ := m.classify_comment htokens hb
  have hextract : Block.extract (.ofTokens tokens) before.length =
      .ok ((m.comment.closed p).block before.length) := by
    rw [htokens, Stream.ClosedComment.extract_ofTokens]
  refine ⟨_, hextract, FileView.blockViolations_eq_nil ?_⟩
  refine RuleSet.check_functionHeader (n := marker) ?_ ?_ ?_ ?_
  · rw [FileView.blockView, Block.opener_of_extract hextract]
    exact hregion
  · exact RuleSet.checkBlock_functionRule (m.comment.hasTag_closed p _ m.method)
      (m.comment.hasTag_closed p _ m.returns)
  · exact m.comment.check_closed p before.length
  · rw [FileView.blockView, m.comment.tagCount_closed, m.documented]
    exact hdeclared

/-- The tokens of a member: its comment, and what stands before and after it. -/
theorem exists_layout (p : Position) :
    ∃ q r, Slice.layout p m.slices = Slice.layout p (Slice.ofText m.before.chars) ++
      ((m.comment.closed q).tokens ++ Slice.layout r (Slice.ofText m.between.chars ++ m.codeSlices)) := by
  rw [slices, Slice.layout_append, Comment.layout_doc]
  exact ⟨_, _, rfl⟩

/-- No comment opens in the code of a member. -/
theorem lacks_code (p : Position) : Lacks [.docOpen, .docTag, .docClose] (Slice.layout p m.codeSlices) := by
  have hparams : ∀ k ∈ paramKinds m.params.length, k ∉ [Kind.docOpen, .docTag, .docClose] := by
    intro k hk
    exact (by decide : ∀ k ∈ [Kind.identifier, .comma, .whitespace], k ∉ [Kind.docOpen, .docTag, .docClose]) k
      (mem_paramKinds hk)
  refine Stream.lacks_of_map (m.map_kind_code p) ?_
  simpa [or_imp, forall_and] using hparams

/-- The only comment of a member is its own, and nothing is found in it. -/
theorem passes_or_later (path : Path) {tokens before after : List Token} {p : Position} {e : CommentEntry}
    (htokens : tokens = before ++ (Slice.layout p m.slices ++ after))
    (hb : (Stream.ofTokens tokens).classBoundary ≤ before.length)
    (he : e ∈ Stream.commentsFrom before.length none (Slice.layout p m.slices ++ after)) :
    Passes path tokens e.opener ∨
      e ∈ Stream.commentsFrom (before ++ Slice.layout p m.slices).length none after := by
  obtain ⟨q, r, hlayout⟩ := m.exists_layout p
  generalize hgap : Slice.layout p (Slice.ofText m.before.chars) = gap at hlayout
  have hlead : Lacks [.docOpen, .docTag, .docClose] gap := by
    rw [← hgap]
    exact m.before.lacks (by decide) p
  have hcode : Lacks [.docOpen, .docTag, .docClose]
      (Slice.layout r (Slice.ofText m.between.chars ++ m.codeSlices)) := by
    rw [Slice.layout_append]
    exact .append (m.between.lacks (by decide) r) (m.lacks_code _)
  rw [hlayout] at htokens he ⊢
  rw [List.append_assoc, List.append_assoc, Stream.commentsFrom_skip hlead, Stream.ClosedComment.commentsFrom_tokens,
    Stream.commentsFrom_skip hcode] at he
  rcases List.mem_cons.1 he with rfl | he
  · have hparts : tokens = (before ++ gap) ++ ((m.comment.closed q).tokens ++
        (Slice.layout r (Slice.ofText m.between.chars ++ m.codeSlices) ++ after)) := by
      rw [htokens]
      simp
    have hlen : (before ++ gap).length = before.length + gap.length := List.length_append
    have h := m.passes_comment path hparts (by omega)
    rw [hlen] at h
    exact .inl h
  · simp only [List.length_append, ← Nat.add_assoc] at he ⊢
    exact .inr he

theorem lacks_divider (p : Position) :
    Lacks [.docOpen, .docTag, .docClose] (Slice.layout p m.divider) := by
  have hcomma : [symbol ','].map Slice.cls = [Kind.comma].map SliceClass.token := rfl
  rw [divider, Slice.layout_append]
  exact .append (m.lead.lacks (by decide) p) (Slice.lacks_layout hcomma (by decide) _)

end Member

/-- Member by member, the comments of all members are passed. -/
theorem passes_or_after (path : Path) (ms : List Member) {tokens before after : List Token} {p : Position}
    {e : CommentEntry}
    (htokens : tokens = before ++ (Slice.layout p (ms.flatMap fun m => m.divider ++ m.slices) ++ after))
    (hb : (Stream.ofTokens tokens).classBoundary ≤ before.length)
    (he : e ∈ Stream.commentsFrom before.length none
      (Slice.layout p (ms.flatMap fun m => m.divider ++ m.slices) ++ after)) :
    Passes path tokens e.opener ∨ ∃ i, e ∈ Stream.commentsFrom i none after := by
  induction ms generalizing before p with
  | nil => exact .inr ⟨_, he⟩
  | cons m ms ih =>
    rw [List.flatMap_cons, List.append_assoc, Slice.layout_append, Slice.layout_append, List.append_assoc,
      List.append_assoc] at htokens he
    generalize hdivider : Slice.layout p m.divider = divider at htokens he
    generalize p.advance (m.divider.flatMap Slice.text) = q at htokens he
    have hplain : Lacks [.docOpen, .docTag, .docClose] divider := by
      rw [← hdivider]
      exact m.lacks_divider p
    rw [Stream.commentsFrom_skip hplain, ← List.length_append] at he
    rw [← List.append_assoc] at htokens
    have hlen : before.length ≤ (before ++ divider).length := by simp
    rcases m.passes_or_later path htokens (hb.trans hlen) he with h | he
    · exact .inl h
    · rw [← List.append_assoc] at htokens
      refine ih htokens ?_ he
      rw [List.length_append]
      omega

/-- The first member has no divider before it. -/
theorem passes_members (path : Path) (ms : List Member) {tokens before after : List Token} {p : Position}
    {e : CommentEntry} (htokens : tokens = before ++ (Slice.layout p (membersSlices ms) ++ after))
    (hb : (Stream.ofTokens tokens).classBoundary ≤ before.length)
    (hafter : Lacks [.docOpen, .docTag, .docClose] after)
    (he : e ∈ Stream.commentsFrom before.length none (Slice.layout p (membersSlices ms) ++ after)) :
    Passes path tokens e.opener := by
  have hend : ∀ i, Stream.commentsFrom i none after = [] := fun i => Stream.commentsFrom_eq_nil hafter
  cases ms with
  | nil =>
    have hnil : e ∈ Stream.commentsFrom before.length none after := he
    rw [hend] at hnil
    cases hnil
  | cons m ms =>
    rw [membersSlices, Slice.layout_append, List.append_assoc] at htokens he
    rcases m.passes_or_later path htokens hb he with h | he
    · exact h
    · rw [← List.append_assoc] at htokens
      have hlen : before.length ≤ (before ++ Slice.layout p m.slices).length := by simp
      rcases passes_or_after path ms htokens (hb.trans hlen) he with h | ⟨i, he⟩
      · exact h
      · rw [hend] at he
        cases he

namespace File

variable (f : File)

theorem exists_layout :
    ∃ q r s paren brace, paren.kind = .openParen ∧ brace.kind = .openBrace ∧
      Slice.layout .start f.slices = (f.header.closed .start).tokens ++ (Slice.layout q f.nameSlices ++
        paren :: brace :: (Slice.layout r (membersSlices f.members) ++ Slice.layout s f.endSlices)) := by
  have hsymbol : ∀ p c ss, Slice.layout p (symbol c :: ss) =
      Piece.token p ⟨Slice.symbolKind c, [c]⟩ :: Slice.layout (p.advance [c]) ss := fun _ _ _ => rfl
  rw [slices, Comment.layout_doc, Slice.layout_append, hsymbol, hsymbol, Slice.layout_append]
  exact ⟨_, _, _, _, _, rfl, rfl, rfl⟩

/-- Between the header and the first bracket there are words and blanks only. -/
theorem lacks_name {kinds : List Kind}
    (h : .identifier ∉ kinds ∧ .other ∉ kinds ∧ .whitespace ∉ kinds ∧ .newline ∉ kinds) (p : Position) :
    Lacks kinds (Slice.layout p f.nameSlices) := by
  have hcls : [word f.name, space, symbol '=', space, word f.base, symbol '.', word extend].map Slice.cls =
      [Kind.identifier, .whitespace, .other, .whitespace, .identifier, .other, .identifier].map
        SliceClass.token := rfl
  rw [nameSlices, Slice.layout_append]
  refine .append (f.start.lacks h.2.2 p) (Slice.lacks_layout hcls ?_ _)
  simp [h]

theorem lacks_end (p : Position) : Lacks [.docOpen, .docTag, .docClose] (Slice.layout p f.endSlices) := by
  have hcls : [symbol '\x7d', symbol ')', symbol ';'].map Slice.cls =
      [Kind.closeBrace, .closeParen, .semicolon].map SliceClass.token := rfl
  rw [endSlices, Slice.layout_append, Slice.layout_append]
  exact .append (.append (f.last.lacks (by decide) p) (Slice.lacks_layout hcls (by decide) _))
    (f.rest.lacks (by decide) _)

/-- The class header has the tags that it should have. -/
theorem checkBlock_header (p : Position) (o : Nat) :
    RuleSet.classRule.checkBlock ((f.header.closed p).block o) = [] := by
  obtain ⟨before, kind, after, htags, hkind, hothers, hclass⟩ := f.tagged.kind
  have hnames := f.header.tagNames_closed p o
  rw [htags, List.map_append, List.map_cons] at hnames
  obtain ⟨bs, rest, hsplit, hbs, hrest⟩ := List.map_eq_append_iff.1 hnames
  obtain ⟨k, as, rfl, hk, has⟩ := List.map_eq_cons_iff.1 hrest
  -- A tag of the block has the name of a tag of the header.
  have named : ∀ {bts : List BlockTag} {ts : List Tag} {t : BlockTag}, bts.map BlockTag.name = ts.map Tag.text →
      t ∈ bts → ∃ u ∈ ts, u.text = t.name := by
    intro bts ts t hmap ht
    have hmem : t.name ∈ bts.map BlockTag.name := List.mem_map_of_mem ht
    rw [hmap] at hmem
    exact List.mem_map.1 hmem
  refine RuleSet.checkBlock_classRule (Stream.ClosedComment.ordered_block o).tagsRising hsplit ?_ ?_ ?_
  · rw [hk]
    exact hkind
  · intro t ht
    have hall : (bs ++ as).map BlockTag.name = (before ++ after).map Tag.text := by
      rw [List.map_append, List.map_append, hbs, has]
    obtain ⟨u, hu, hname⟩ := named hall ht
    rw [← hname]
    exact hothers u hu
  · obtain ⟨u, hu, hname⟩ := hclass
    have hmem : u.text ∈ before.map Tag.text := List.mem_map_of_mem hu
    rw [← hbs] at hmem
    obtain ⟨t, ht, htext⟩ := List.mem_map.1 hmem
    exact ⟨t, ht, htext.trans hname⟩

/-- The header is the block at the beginning of the file. -/
theorem extract_header (p : Position) (after : List Token) :
    Block.extract (.ofTokens ((f.header.closed p).tokens ++ after)) 0 = .ok ((f.header.closed p).block 0) :=
  Stream.ClosedComment.extract_ofTokens [] after

theorem passes_header (path : Path) {tokens after : List Token} {p : Position}
    (htokens : tokens = (f.header.closed p).tokens ++ after) (hb : 0 < (Stream.ofTokens tokens).classBoundary) :
    Passes path tokens 0 := by
  have hextract : Block.extract (.ofTokens tokens) 0 = .ok ((f.header.closed p).block 0) := by
    rw [htokens, extract_header]
  refine ⟨_, hextract, FileView.blockViolations_eq_nil ?_⟩
  refine RuleSet.check_classHeader (n := (Stream.ofTokens tokens).classBoundary) ?_ ?_ ?_
  · rw [FileView.blockView, Block.opener_of_extract hextract]
    exact if_pos hb
  · exact f.checkBlock_header p 0
  · exact f.header.check_closed p 0

/-- The tokens of a file: the header, the members, and between and after them tokens outside of comments.  The class
header ends between the header and the members. -/
theorem exists_tokens :
    ∃ middle r tail, lex (withoutByteOrderMark f.text) =
        (f.header.closed .start).tokens ++ (middle ++ (Slice.layout r (membersSlices f.members) ++ tail)) ∧
      Lacks [.docOpen, .docTag, .docClose] middle ∧ Lacks [.docOpen, .docTag, .docClose] tail ∧
      0 < (Stream.ofSource f.text).classBoundary ∧
      (Stream.ofSource f.text).classBoundary ≤ ((f.header.closed .start).tokens ++ middle).length := by
  obtain ⟨q, r, s, paren, brace, hparen, hbrace, hlayout⟩ := f.exists_layout
  have hbrackets : [paren, brace].map Token.kind = [.openParen, .openBrace] := by simp [hparen, hbrace]
  have hbefore : Lacks [.openParen, .openBrace] ((f.header.closed .start).tokens ++ Slice.layout q f.nameSlices) :=
    .append (f.header.lacks (by decide) .start) (f.lacks_name (by decide) q)
  have hboundary : (Stream.ofSource f.text).classBoundary =
      ((f.header.closed .start).tokens ++ Slice.layout q f.nameSlices).length := by
    rw [Stream.ofSource, lex_text, hlayout, ← List.append_assoc,
      Stream.classBoundary_eq hbefore (by simp [hparen])]
  refine ⟨Slice.layout q f.nameSlices ++ [paren, brace], r, Slice.layout s f.endSlices, ?_, ?_, f.lacks_end s, ?_, ?_⟩
  · rw [lex_text, hlayout]
    simp
  · exact .append (f.lacks_name (by decide) q) (Stream.lacks_of_map hbrackets (by decide))
  · rw [hboundary, Stream.ClosedComment.tokens, List.cons_append, List.length_cons]
    omega
  · rw [hboundary]
    simp only [List.length_append]
    omega

/-- The comments of a file are its header, which comes first, and those of its members; all of them are passed. -/
theorem passes_openers (path : Path) :
    Block.extract (.ofSource f.text) 0 = .ok ((f.header.closed .start).block 0) ∧
      0 ∈ (Stream.ofSource f.text).openers ∧
      ∀ o ∈ (Stream.ofSource f.text).openers, Passes path (lex (withoutByteOrderMark f.text)) o := by
  obtain ⟨middle, r, tail, htokens, hmiddle, htail, hpositive, hboundary⟩ := f.exists_tokens
  have hcomments : (Stream.ofSource f.text).comments = (f.header.closed .start).entry 0 ::
      Stream.commentsFrom ((f.header.closed .start).tokens ++ middle).length none
        (Slice.layout r (membersSlices f.members) ++ tail) := by
    have hskip := @Stream.ClosedComment.commentsFrom_tokens 0 none (f.header.closed .start)
      (middle ++ (Slice.layout r (membersSlices f.members) ++ tail))
    rw [← htokens, Stream.commentsFrom_skip hmiddle, Nat.zero_add, ← List.length_append] at hskip
    exact hskip
  refine ⟨?_, ?_, fun o ho => ?_⟩
  · rw [Stream.ofSource, htokens, extract_header]
  · rw [Stream.openers, hcomments]
    exact List.mem_cons_self
  · obtain ⟨e, he, rfl⟩ := List.mem_map.1 ho
    rw [hcomments] at he
    rcases List.mem_cons.1 he with rfl | he
    · exact f.passes_header path htokens hpositive
    · rw [← List.append_assoc] at htokens
      exact passes_members path f.members htokens hboundary htail he

end File

/-- Nothing is found in a conforming file by the rules of a project that configures nothing. -/
theorem analyzeSource_conforming (f : File) (path : Path) :
    ∃ rules, RuleSet.standard = .ok rules ∧ analyzeSource .javaScript {} rules path f.text = .ok [] := by
  refine ⟨_, RuleSet.standard_eq, ?_⟩
  obtain ⟨hextract, hfirst, hpasses⟩ := f.passes_openers path
  have hmodule : ∀ r ∈ RuleSet.standardRules.fileRules,
      r.check ⟨path, .ofSource f.text⟩ (FileView.blocks ⟨path, .ofSource f.text⟩) = [] := by
    have hblock : (f.header.closed .start).block 0 ∈ FileView.blocks ⟨path, .ofSource f.text⟩ := by
      rw [FileView.mem_blocks, Block.opener_of_extract hextract]
      exact ⟨hfirst, hextract⟩
    have hany : (FileView.blocks ⟨path, .ofSource f.text⟩).any (fun b => b.hasTag "@module") = true :=
      List.any_eq_true.2 ⟨_, hblock, f.header.hasTag_closed .start 0 f.tagged.module⟩
    intro r hr
    rw [List.mem_singleton.1 hr]
    exact if_pos hany
  rw [analyzeSource_javaScript, analyzeScript, FileView.analyze_eq_nil hpasses hmodule]

/-- A file with two functions, one with two parameters and one with none. -/
def File.twoFunctions : File where
  header := {
    prose := ⟨⟨'A', [], by decide, by decide, by decide⟩,
      [(some ⟨[], by simp⟩, ⟨'B', [], by decide, by decide, by decide⟩)]⟩
    gap := ⟨[], by simp⟩
    tags := [
      ⟨"module".toList, some "m".toList, [], List.all_iff_forall_prop.1 (by decide), by decide +kernel, by decide⟩,
      ⟨"class".toList, none, [], List.all_iff_forall_prop.1 (by decide), by decide +kernel, by decide⟩,
      ⟨"static".toList, none, [], List.all_iff_forall_prop.1 (by decide), by decide +kernel, by decide⟩] }
  tagged := ⟨by decide +kernel, [_, _], _, [], rfl, by decide +kernel, by decide +kernel, by decide +kernel⟩
  start := ⟨['\n'], by simp [Slice.isGap]⟩
  name := ⟨'C', [], by decide, by simp, by decide⟩
  base := ⟨'B', [], by decide, by simp, by decide⟩
  members := [
    { lead := ⟨[], by simp⟩
      before := ⟨['\n'], by simp [Slice.isGap]⟩
      comment := {
        prose := ⟨⟨'F', [], by decide, by decide, by decide⟩, []⟩
        gap := ⟨[], by simp⟩
        tags := [
          ⟨"method".toList, none, [], List.all_iff_forall_prop.1 (by decide), by decide +kernel, by decide⟩,
          ⟨"param".toList, some "x".toList, [⟨'m', "ore".toList, by decide, by decide, by decide⟩],
            List.all_iff_forall_prop.1 (by decide), by decide +kernel, by decide⟩,
          ⟨"param".toList, some "y".toList, [], List.all_iff_forall_prop.1 (by decide), by decide +kernel, by decide⟩,
          ⟨"return".toList, none, [], List.all_iff_forall_prop.1 (by decide), by decide +kernel, by decide⟩] }
      between := ⟨['\n'], by simp [Slice.isGap]⟩
      name := ⟨'f', [], by decide, by simp, by decide⟩
      params := [⟨'x', [], by decide, by simp, by decide⟩, ⟨'y', [], by decide, by simp, by decide⟩]
      method := by decide +kernel
      returns := by decide +kernel
      documented := by decide +kernel },
    { lead := ⟨[], by simp⟩
      before := ⟨['\n'], by simp [Slice.isGap]⟩
      comment := {
        prose := ⟨⟨'G', [], by decide, by decide, by decide⟩, []⟩
        gap := ⟨[], by simp⟩
        tags := [
          ⟨"method".toList, none, [], List.all_iff_forall_prop.1 (by decide), by decide +kernel, by decide⟩,
          ⟨"return".toList, none, [], List.all_iff_forall_prop.1 (by decide), by decide +kernel, by decide⟩] }
      between := ⟨['\n'], by simp [Slice.isGap]⟩
      name := ⟨'g', [], by decide, by simp, by decide⟩
      params := []
      method := by decide +kernel
      returns := by decide +kernel
      documented := by decide +kernel }]
  last := ⟨['\n'], by simp [Slice.isGap]⟩
  rest := ⟨[], by simp⟩

theorem analyzeSource_conforming_of_two_functions :
    File.twoFunctions.text =
      "/**\n * A\n *\n * B\n *\n * @module m\n * @class\n * @static\n */\n".toList ++
      "C = B.extend(\x7b\n/**\n * F\n *\n * @method\n * @param x\n * more\n * @param y\n * @return\n */\n".toList ++
      "f: function (x, y) \x7b\x7d,\n/**\n * G\n *\n * @method\n * @return\n */\n".toList ++
      "g: function () \x7b\x7d\n\x7d);".toList ∧
    ∃ rules, RuleSet.standard = .ok rules ∧
      analyzeSource .javaScript {} rules (.ofString "a.js") File.twoFunctions.text = .ok [] :=
  ⟨by decide +kernel, analyzeSource_conforming File.twoFunctions (.ofString "a.js")⟩

end Conforming

end DocLint
