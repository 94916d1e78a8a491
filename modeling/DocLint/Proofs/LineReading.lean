import DocLint.Proofs.Grouping

/-!
# Comments read line by line

A doc comment in the usual layout is put together from lines, cut into pieces, indexed and read as a block.  What the
block says is what its lines say, one after another: a line that begins with `@` is a tag, any other line with a text on
it is prose or goes on with the tag before it, and every line has its mark.
-/
namespace DocLint

open DocLint.Text
open DocComment

/-! ## The direct reading -/

namespace DocLines

/-- A line from its first character on that is not a leading blank. -/
def stripped (l : List Char) : List Char := l.dropWhile isLead

def isTag (l : List Char) : Bool := (stripped l).head? = some '@'

/-- The name of a tag runs to the first blank. -/
def name (l : List Char) : List Char := (stripped l).takeWhile fun c => !isBlank c

/-- What a line has to say apart from a name. -/
def text (l : List Char) : List Char :=
  if isTag l then trimEnd (((stripped l).dropWhile fun c => !isBlank c).dropWhile isLead) else trimEnd (stripped l)

/-- What some lines have to say, without those that say nothing. -/
def texts (ls : List (List Char)) : List (List Char) := (ls.map text).filter fun t => !t.isEmpty

/-- The texts before the first tag, each with the number of its line if the first line has number `n`. -/
def prose (n : Nat) (ls : List (List Char)) : List Prose :=
  (((ls.takeWhile fun l => !isTag l).zipIdx n).filter fun x => !(text x.1).isEmpty).map fun x =>
    ⟨x.2, String.ofList (text x.1)⟩

/-- The tags, each with all that is said up to the next one. -/
def tags : Nat → List (List Char) → List BlockTag
  | _, [] => []
  | n, l :: ls =>
    if isTag l then
      ⟨n, String.ofList (name l), String.ofList (joinWith [' '] (texts (l :: ls.takeWhile fun l => !isTag l)))⟩ ::
        tags (n + 1) ls
    else tags (n + 1) ls

/-- What a comment with these lines says. -/
def contents (ls : List (List Char)) : Contents := ⟨ls.length, prose 1 ls, tags 1 ls⟩

theorem texts_cons (l : List Char) (ls : List (List Char)) : texts (l :: ls) = texts [l] ++ texts ls := by
  rw [texts, texts, texts, ← List.filter_append]
  rfl

theorem texts_singleton (l : List Char) : texts [l] = if (text l).isEmpty then [] else [text l] := by
  cases h : (text l).isEmpty <;> simp [texts, h]

end DocLines

/-! ## One line -/

namespace DocLines

theorem tagPieces_of_isTag {l : List Char} (h : isTag l = true) :
    ∃ lead, tagPieces (stripped l) = ⟨.docTag, name l⟩ ::
      (blanks lead ++ textPieces (((stripped l).dropWhile fun c => !isBlank c).dropWhile isLead)) := by
  obtain ⟨t, ht⟩ : ∃ t, stripped l = '@' :: t := List.head?_eq_some_iff.1 (of_decide_eq_true h)
  have hat : isBlank '@' = false := by decide
  rw [name, ht, List.takeWhile_cons, List.dropWhile_cons, hat]
  exact ⟨_, rfl⟩

theorem tagPieces_of_not_isTag {l : List Char} (h : ¬ isTag l = true) :
    tagPieces (stripped l) = textPieces (stripped l) := by
  unfold tagPieces
  split
  · next t ht =>
    simp [isTag, ht] at h
  · rfl

end DocLines

open DocLines (isTag name text texts prose tags)

namespace Contents

/-- Contents with one more text, unless it is empty. -/
def readText (c : Contents) (t : List Char) : Contents := if t.isEmpty then c else c.read ⟨.docString, t⟩

/-- Contents with one more line. -/
def readLine (c : Contents) (l : List Char) : Contents :=
  if isTag l then
    ⟨c.marks + 1, c.prose, c.tags ++ [⟨c.marks + 1, String.ofList (name l), String.ofList (text l)⟩]⟩
  else readText { c with marks := c.marks + 1 } (text l)

theorem foldl_read_blanks (c : Contents) (t : List Char) : (blanks t).foldl read c = c := by
  unfold blanks
  split <;> rfl

theorem foldl_read_textPieces (c : Contents) (t : List Char) :
    (textPieces t).foldl read c = c.readText (trimEnd t) := by
  rw [textPieces, List.foldl_append, foldl_read_blanks, readText]
  split <;> rfl

/-- A text after a tag goes into its body. -/
theorem readText_concat {c : Contents} {ts : List BlockTag} {t : BlockTag} (h : c.tags = ts ++ [t]) {u : List Char}
    (hu : u.isEmpty = false) : c.readText u = { c with tags := ts ++ [t.extend (String.ofList u)] } := by
  have hne : c.tags.isEmpty = false := by simp [h]
  simp only [readText, hu, Bool.false_eq_true, if_false, read, hne]
  rw [h, BlockTag.extendLast_concat]

/-- A text right behind the name of a tag is its body. -/
theorem readText_named {c : Contents} {ts : List BlockTag} {n : Nat} {name : String}
    (h : c.tags = ts ++ [⟨n, name, ""⟩]) (u : List Char) :
    c.readText u = { c with tags := ts ++ [⟨n, name, String.ofList u⟩] } := by
  cases hu : u.isEmpty with
  | true =>
    rw [readText, if_pos hu, List.isEmpty_iff.1 hu]
    cases c
    cases h
    rfl
  | false =>
    rw [readText_concat h hu]
    rfl

theorem foldl_read_tagPieces (c : Contents) (l : List Char) :
    (tagPieces (l.dropWhile isLead)).foldl read { c with marks := c.marks + 1 } = c.readLine l := by
  unfold readLine
  split
  · next htag =>
    obtain ⟨rest, hpieces⟩ := DocLines.tagPieces_of_isTag htag
    rw [← DocLines.stripped, hpieces, List.foldl_cons, List.foldl_append, foldl_read_blanks, foldl_read_textPieces,
      DocLines.text, if_pos htag]
    exact readText_named rfl _
  · next htag =>
    rw [← DocLines.stripped, DocLines.tagPieces_of_not_isTag htag, foldl_read_textPieces, DocLines.text, if_neg htag]

theorem foldl_read_line (c : Contents) (l : List Char) :
    (⟨.docNewline, ['\n']⟩ :: linePieces true (markedLine l)).foldl read c = c.readLine l := by
  rw [linePieces_markedLine, List.foldl_cons, List.foldl_append, contentPieces, List.foldl_append, foldl_read_blanks]
  exact foldl_read_tagPieces c l

/-- The pieces of a comment are read as its lines are. -/
theorem foldl_read_innerPieces (c : Contents) (ls : List (List Char)) :
    (innerPieces ls).foldl read c = ls.foldl readLine c := by
  induction ls generalizing c with
  | nil => rfl
  | cons l ls ih =>
    have hsplit : innerPieces (l :: ls) =
        (⟨.docNewline, ['\n']⟩ :: linePieces true (markedLine l)) ++ innerPieces ls := rfl
    rw [hsplit, List.foldl_append, foldl_read_line, ih, List.foldl_cons]

end Contents

/-! ## All lines -/

/-- A tag that has some texts for its body. -/
def BlockTag.ofTexts (n : Nat) (name : String) (us : List (List Char)) : BlockTag :=
  ⟨n, name, String.ofList (joinWith [' '] us)⟩

/-- One more text is joined to the others by a space. -/
theorem BlockTag.extend_ofTexts (n : Nat) (name : String) {us : List (List Char)} (hus : ∀ u ∈ us, u.isEmpty = false)
    (u : List Char) : (ofTexts n name us).extend (String.ofList u) = ofTexts n name (us ++ [u]) := by
  cases us with
  | nil => rfl
  | cons v us =>
    have hne : (String.ofList (joinWith [' '] (v :: us))).isEmpty = false := by
      have hv := hus v (by simp)
      rw [joinWith_cons]
      simp_all
    rw [ofTexts, extend, ofTexts, joinWith_concat _ (List.cons_ne_nil v us)]
    simp [hne, String.append_assoc]

namespace DocLines

open Contents (readLine)

theorem isEmpty_of_mem_texts {ls : List (List Char)} {u : List Char} (h : u ∈ texts ls) : u.isEmpty = false := by
  simpa using (List.mem_filter.1 h).2

section Step

variable {l : List Char}

theorem readLine_of_isTag (h : isTag l = true) (k : Nat) (p : List Prose) (ts : List BlockTag) :
    readLine ⟨k, p, ts⟩ l = ⟨k + 1, p, ts ++ [.ofTexts (k + 1) (String.ofList (name l)) (texts [l])]⟩ := by
  have htext : joinWith [' '] (texts [l]) = text l := by
    rw [texts_singleton]
    split
    · next he => exact (List.isEmpty_iff.1 he).symm
    · rfl
  rw [readLine, if_pos h, BlockTag.ofTexts, htext]

theorem readLine_blank (h : ¬ isTag l = true) (ht : (text l).isEmpty = true) (k : Nat) (p : List Prose)
    (ts : List BlockTag) : readLine ⟨k, p, ts⟩ l = ⟨k + 1, p, ts⟩ := by
  rw [readLine, if_neg h, Contents.readText, if_pos ht]

theorem readLine_prose (h : ¬ isTag l = true) (ht : (text l).isEmpty = false) (k : Nat) (p : List Prose) :
    readLine ⟨k, p, []⟩ l = ⟨k + 1, p ++ [⟨k + 1, String.ofList (text l)⟩], []⟩ := by
  rw [readLine, if_neg h, Contents.readText, if_neg (Bool.eq_false_iff.1 ht)]
  rfl

theorem readLine_body (h : ¬ isTag l = true) (ht : (text l).isEmpty = false) (k : Nat) (p : List Prose)
    (ts : List BlockTag) (n : Nat) (name : String) {us : List (List Char)} (hus : ∀ u ∈ us, u.isEmpty = false) :
    readLine ⟨k, p, ts ++ [.ofTexts n name us]⟩ l = ⟨k + 1, p, ts ++ [.ofTexts n name (us ++ [text l])]⟩ := by
  rw [readLine, if_neg h, Contents.readText_concat rfl ht, BlockTag.extend_ofTexts n name hus]

theorem tags_cons_of_isTag (h : isTag l = true) (n : Nat) (ls : List (List Char)) :
    tags n (l :: ls) = .ofTexts n (String.ofList (name l)) (texts [l] ++ texts (ls.takeWhile fun l => !isTag l)) ::
      tags (n + 1) ls := by
  rw [tags, if_pos h, texts_cons]
  rfl

theorem tags_cons_of_not_isTag (h : ¬ isTag l = true) (n : Nat) (ls : List (List Char)) :
    tags n (l :: ls) = tags (n + 1) ls := by
  rw [tags, if_neg h]

theorem prose_cons_of_not_isTag (h : ¬ isTag l = true) (n : Nat) (ls : List (List Char)) :
    prose n (l :: ls) = (if (text l).isEmpty then [] else [⟨n, String.ofList (text l)⟩]) ++ prose (n + 1) ls := by
  rw [prose, List.takeWhile_cons_of_pos (by simpa using h), List.zipIdx_cons]
  cases ht : (text l).isEmpty <;> simp [ht, prose]

end Step

/-- The lines after a tag, up to the next one, go into its body. -/
theorem foldl_readLine_tag (ls : List (List Char)) (k : Nat) (p : List Prose) (ts : List BlockTag) (n : Nat)
    (name : String) {us : List (List Char)} (hus : ∀ u ∈ us, u.isEmpty = false) :
    ls.foldl readLine ⟨k, p, ts ++ [.ofTexts n name us]⟩ = ⟨k + ls.length, p,
      ts ++ .ofTexts n name (us ++ texts (ls.takeWhile fun l => !isTag l)) :: tags (k + 1) ls⟩ := by
  -- On the lines to come; `us` are the texts that the last tag has so far.
  induction ls generalizing k ts n name us with
  | nil => simp [texts, tags]
  | cons l ls ih =>
    have hlength : k + (l :: ls).length = k + 1 + ls.length := by
      rw [List.length_cons]
      omega
    rw [List.foldl_cons, hlength]
    by_cases htag : isTag l = true
    · rw [readLine_of_isTag htag, ih _ _ _ _ fun u => isEmpty_of_mem_texts, tags_cons_of_isTag htag]
      simp [htag, texts]
    · rw [tags_cons_of_not_isTag htag, List.takeWhile_cons_of_pos (by simpa using htag), texts_cons, texts_singleton]
      cases ht : (text l).isEmpty with
      | true =>
        rw [readLine_blank htag ht, ih _ _ _ _ hus]
        rfl
      | false =>
        have hmore : ∀ u ∈ us ++ [text l], u.isEmpty = false := by
          intro u hu
          cases List.mem_append.1 hu with
          | inl hu => exact hus u hu
          | inr hu => rw [List.mem_singleton.1 hu, ht]
        rw [readLine_body htag ht _ _ _ _ _ hus, ih _ _ _ _ hmore, List.append_assoc]
        rfl

/-- Before the first tag, the lines are prose. -/
theorem foldl_readLine_prose (ls : List (List Char)) (k : Nat) (p : List Prose) :
    ls.foldl readLine ⟨k, p, []⟩ = ⟨k + ls.length, p ++ prose (k + 1) ls, tags (k + 1) ls⟩ := by
  induction ls generalizing k p with
  | nil => simp [prose, tags]
  | cons l ls ih =>
    have hlength : k + (l :: ls).length = k + 1 + ls.length := by
      rw [List.length_cons]
      omega
    rw [List.foldl_cons, hlength]
    by_cases htag : isTag l = true
    · have hnone : prose (k + 1) (l :: ls) = [] := by simp [prose, htag]
      rw [readLine_of_isTag htag, foldl_readLine_tag ls _ _ _ _ _ fun u => isEmpty_of_mem_texts,
        tags_cons_of_isTag htag, hnone, List.append_nil, List.nil_append]
    · rw [tags_cons_of_not_isTag htag, prose_cons_of_not_isTag htag]
      cases ht : (text l).isEmpty with
      | true =>
        rw [readLine_blank htag ht, ih]
        rfl
      | false =>
        rw [readLine_prose htag ht, ih, List.append_assoc]
        rfl

theorem ofPieces_innerPieces (ls : List (List Char)) : .ofPieces (innerPieces ls) = contents ls := by
  rw [Contents.ofPieces, Contents.foldl_read_innerPieces, foldl_readLine_prose, contents, Nat.zero_add, Nat.zero_add]
  rfl

end DocLines

/-! ## Tags and where they stand -/

theorem TagName.exists_toList_eq (n : TagName) : ∃ cs, n.text.toList = '@' :: cs := by
  have hvalid := n.valid
  unfold isTagName at hvalid
  split at hvalid
  · next c cs hn => exact ⟨c :: cs, hn⟩
  · cases hvalid

namespace DocLines

theorem length_tags (n : Nat) (ls : List (List Char)) : (tags n ls).length = ls.countP isTag := by
  induction ls generalizing n with
  | nil => rfl
  | cons l ls ih =>
    rw [tags, List.countP_cons]
    split
    · rw [List.length_cons, ih]
    · rw [ih, Nat.add_zero]

theorem exists_mem_tags {ls : List (List Char)} {i : Nat} {l : List Char} (h : ls[i]? = some l)
    (htag : isTag l = true) (n : Nat) : ∃ t ∈ tags n ls, t.pos = n + i ∧ t.name = String.ofList (name l) := by
  induction ls generalizing i n with
  | nil => simp at h
  | cons m ls ih =>
    cases i with
    | zero =>
      obtain rfl : m = l := by simpa using h
      rw [tags, if_pos htag]
      exact ⟨_, List.mem_cons_self, rfl, rfl⟩
    | succ i =>
      obtain ⟨t, ht, hpos, hname⟩ := ih (by simpa using h) (n + 1)
      refine ⟨t, ?_, by omega, hname⟩
      rw [tags]
      split
      · exact List.mem_cons_of_mem _ ht
      · exact ht

/-- A tag name at the beginning of a line, with a blank or nothing behind it, is the name of a tag. -/
theorem name_of_tagName (n : TagName) {lead rest : List Char} (hlead : ∀ c ∈ lead, isLead c = true)
    (hrest : ∀ c ∈ rest.head?, isBlank c = true) :
    isTag (lead ++ (n.text.toList ++ rest)) = true ∧ name (lead ++ (n.text.toList ++ rest)) = n.text.toList := by
  obtain ⟨cs, hn⟩ := n.exists_toList_eq
  have hstripped : stripped (lead ++ (n.text.toList ++ rest)) = n.text.toList ++ rest := by
    rw [stripped, List.dropWhile_append_of_pos hlead, hn]
    exact List.dropWhile_cons_of_neg (by decide)
  have hword : ∀ c ∈ n.text.toList, (!isBlank c) = true := by
    intro c hc
    rw [n.not_isBlank_of_mem hc]
    rfl
  have hstop : Stops (fun c => !isBlank c) rest := by
    intro c hc
    simp only [hrest c hc, Bool.not_true]
  rw [isTag, name, hstripped, takeWhile_append_of_stops hword hstop, hn]
  exact ⟨rfl, rfl⟩

theorem bodyPieces_docInner {ls : List (List Char)} (h : ∀ l ∈ ls, '\n' ∉ l) :
    bodyPieces (docInner ls) = innerPieces ls := by
  have hpieces := pieces_docText h
  rw [docText_eq, pieces_closed] at hpieces
  exact List.append_cancel_right (List.cons.inj hpieces).2

end DocLines

/-- The block of a comment that is put together from lines says what the lines say, whatever stands behind the comment.
Each tag name at the beginning of a line is a tag of the block, and no other line makes one. -/
theorem extract_docLines {ls : List (List Char)} (h : ∀ l ∈ ls, '\n' ∉ l) (more : List Sketch.Part) :
    ∃ b, Block.extract (.ofTokens (Sketch.tokens (.docLines ls :: more))) 0 = .ok b ∧
      b.contents = DocLines.contents ls ∧
      (∀ (i : Nat) (n : TagName) (lead rest : List Char), ls[i]? = some (lead ++ (n.text.toList ++ rest)) →
        (∀ c ∈ lead, isLead c = true) → (∀ c ∈ rest.head?, isBlank c = true) →
        ∃ t ∈ b.tags, b.line t.pos = i + 1 ∧ t.name = n.text) ∧
      b.tags.length = ls.countP isTag := by
  have htokens : Sketch.tokens (.docLines ls :: more) = (closedAt .start (docInner ls)).tokens ++
      Piece.place (Position.start.advance (Piece.textOf (pieces (Sketch.docText ls))))
        (more.flatMap Sketch.Part.pieces) := by
    rw [Sketch.tokens, List.flatMap_cons, Piece.place_append, tokens_closedAt, ← docText_eq]
    rfl
  have hcontents : ((closedAt .start (docInner ls)).block 0).contents = DocLines.contents ls := by
    rw [contents_closedAt, DocLines.bodyPieces_docInner h, DocLines.ofPieces_innerPieces]
  have htags : ((closedAt .start (docInner ls)).block 0).contents.tags = tags 1 ls := congrArg Contents.tags hcontents
  refine ⟨_, ?_, hcontents, fun i n lead rest hl hlead hrest => ?_, ?_⟩
  · rw [htokens]
    exact Stream.ClosedComment.extract_ofTokens [] _
  · obtain ⟨htag, hname⟩ := DocLines.name_of_tagName n hlead hrest
    obtain ⟨u, hu, hpos, htext⟩ := DocLines.exists_mem_tags hl htag 1
    rw [← htags] at hu
    obtain ⟨t, ht, rfl⟩ := List.mem_map.1 hu
    rw [hname, String.ofList_toList] at htext
    exact ⟨t, ht, by rw [Nat.add_comm, ← hpos], htext⟩
  · have hlength := congrArg List.length htags
    rw [Block.contents, List.length_map] at hlength
    exact hlength.trans (DocLines.length_tags 1 ls)

/-- Lines with an opening and a closing inside, with blanks that do not lead, and with nothing but `@`. -/
theorem extract_docLines_of_odd_lines :
    ∃ ls : List (List Char), ls = ["* a */ b\u00a0 ".toList, [], "\t@p\u3000x @q".toList, "/** z".toList, " \r".toList,
        "@".toList, "w".toList] ∧ (∀ l ∈ ls, '\n' ∉ l) ∧
      ∃ b, Block.extract (.ofTokens (Sketch.tokens [.docLines ls, .code "f()".toList])) 0 = .ok b ∧
        b.contents = ⟨7, [⟨1, "* a */ b"⟩], [⟨3, "@p", "\u3000x @q /** z"⟩, ⟨6, "@", "w"⟩]⟩ := by
  have h : ∀ l ∈ ["* a */ b\u00a0 ".toList, [], "\t@p\u3000x @q".toList, "/** z".toList, " \r".toList, "@".toList,
      "w".toList], '\n' ∉ l := by decide +kernel
  obtain ⟨b, hb, hcontents, -, -⟩ := extract_docLines h [.code "f()".toList]
  exact ⟨_, rfl, h, b, hb, hcontents.trans (by decide +kernel)⟩

end DocLint
