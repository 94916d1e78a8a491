import Mathlib.Data.List.TakeWhile
import DocLint.Proofs.LineReading

/-!
# The layout of a comment, by its lines

The check of the layout counts marks between the positions of texts and tags.  For a comment that is put together from
lines this is arithmetic on the indexes of its lines: where prose stands, and where the first tag does.
-/
namespace DocLint

open DocLint.Text
open DocComment
open Spacing (Finding Policy)

namespace DocLines

/-! ## Lines of prose -/

/-- The indexes of the lines of prose: those before the first tag that are not blank. -/
def proseIndexes (ls : List (List Char)) : List Nat :=
  ((ls.takeWhile fun l => !isTag l).zipIdx.filter fun x => !x.1.all isBlank).map Prod.snd

/-- The number of neighbours that are further apart than two. -/
def gaps (is : List Nat) : Nat := (is.zip is.tail).countP fun x => x.2 - x.1 > 2

/-- What is found in the layout of a comment with these lines. -/
def spacing (policy : Policy) (ls : List (List Char)) : List Finding :=
  match (proseIndexes ls).getLast? with
  | none => if policy.requireProse then [.noProse] else []
  | some last =>
    (if policy.checkProseGaps then List.replicate (gaps (proseIndexes ls)) .proseGap else []) ++
      match ls.findIdx? isTag with
      | none => []
      | some j =>
        if j - last = 2 then []
        else [.tagSeparation (j - last) (if j - last = 1 then policy.missingBlank else policy.extraBlank)]

variable {ls : List (List Char)} {i : Nat}

theorem pairwise_proseIndexes (ls : List (List Char)) : (proseIndexes ls).Pairwise (· < ·) := by
  have hsub : (proseIndexes ls).Sublist (((ls.takeWhile fun l => !isTag l).zipIdx).map Prod.snd) :=
    List.filter_sublist.map Prod.snd
  rw [List.zipIdx_map_snd] at hsub
  exact List.Pairwise.sublist hsub List.pairwise_lt_range'

theorem takeWhile_not_isTag (ls : List (List Char)) :
    (ls.takeWhile fun l => !isTag l) = ls.take (ls.findIdx isTag) := by
  simp [List.takeWhile_eq_take_findIdx_not]

theorem mem_proseIndexes : i ∈ proseIndexes ls ↔
    i < ls.findIdx isTag ∧ ∃ l, ls[i]? = some l ∧ l.all isBlank = false := by
  rw [proseIndexes, takeWhile_not_isTag]
  constructor
  · intro h
    obtain ⟨x, hx, rfl⟩ := List.mem_map.1 h
    obtain ⟨hx, hblank⟩ := List.mem_filter.1 hx
    have hget := List.mem_zipIdx_iff_getElem?.1 hx
    rw [List.getElem?_take] at hget
    split at hget
    · next hlt => exact ⟨hlt, x.1, hget, by simpa using hblank⟩
    · cases hget
  · rintro ⟨hlt, l, hl, hblank⟩
    refine List.mem_map.2 ⟨(l, i), List.mem_filter.2 ⟨?_, by simp [hblank]⟩, rfl⟩
    rw [List.mem_zipIdx_iff_getElem?, List.getElem?_take_of_lt hlt]
    exact hl

/-- Between the last line of prose and the first tag there is nothing but blank lines. -/
theorem blank_between {last j : Nat} (hlast : (proseIndexes ls).getLast? = some last)
    (hj : ls.findIdx? isTag = some j) :
    last < j ∧ ∀ k l, last < k → k < j → ls[k]? = some l → l.all isBlank = true := by
  obtain ⟨-, hj⟩ := List.findIdx?_eq_some_iff_findIdx_eq.1 hj
  have hmem := mem_proseIndexes.1 (List.mem_of_getLast? hlast)
  rw [hj] at hmem
  refine ⟨hmem.1, fun k l hk hkj hl => ?_⟩
  rw [← Bool.not_eq_false]
  intro hblank
  have hprose : k ∈ proseIndexes ls := mem_proseIndexes.2 ⟨by rw [hj]; exact hkj, l, hl, hblank⟩
  obtain ⟨before, heq⟩ := List.getLast?_eq_some_iff.1 hlast
  have hrising := pairwise_proseIndexes ls
  rw [heq] at hrising hprose
  cases List.mem_append.1 hprose with
  | inl h =>
    have := (List.pairwise_append.1 hrising).2.2 k h last (by simp)
    omega
  | inr h =>
    have := List.mem_singleton.1 h
    omega

/-! ## Lines and marks -/

/-- A line without a tag has nothing to say exactly if it is blank. -/
theorem isEmpty_text {l : List Char} (h : isTag l = false) : (text l).isEmpty = l.all isBlank := by
  rw [text, if_neg (by simp [h]), stripped, Bool.eq_iff_iff, List.isEmpty_iff, trimEnd, List.reverse_eq_nil_iff,
    List.dropWhile_eq_nil_iff, List.all_eq_true]
  constructor
  · intro hall c hc
    rw [← @List.takeWhile_append_dropWhile _ isLead l] at hc
    cases List.mem_append.1 hc with
    | inl hc => exact isBlank_of_isLead (List.mem_takeWhile_imp hc)
    | inr hc => exact hall c (List.mem_reverse.2 hc)
  · intro hall c hc
    exact hall c ((List.dropWhile_suffix isLead).subset (List.mem_reverse.1 hc))

theorem map_pos_prose (n : Nat) (ls : List (List Char)) :
    (prose n ls).map Prose.pos = (proseIndexes ls).map (n + ·) := by
  have hsame : ∀ x ∈ (ls.takeWhile fun l => !isTag l).zipIdx, (!(text x.1).isEmpty) = !x.1.all isBlank := by
    intro x hx
    have htag := List.mem_takeWhile_imp (List.fst_mem_of_mem_zipIdx hx)
    rw [isEmpty_text (by simpa using htag)]
  rw [prose, proseIndexes, List.zipIdx_eq_map_add, List.filter_map, List.map_map, List.map_map, List.map_map,
    ← List.filter_congr hsame]
  rfl

theorem head?_tags (n : Nat) (ls : List (List Char)) :
    (tags n ls).head?.map BlockTag.pos = (ls.findIdx? isTag).map (n + ·) := by
  induction ls generalizing n with
  | nil => rfl
  | cons l ls ih =>
    rw [tags, List.findIdx?_cons]
    split
    · rfl
    · rw [ih, Option.map_map]
      congr 1
      funext j
      simp only [Function.comp_apply]
      omega

theorem gaps_cons_cons (m k : Nat) (is : List Nat) :
    gaps (m :: k :: is) = gaps (k :: is) + if k - m > 2 then 1 else 0 := by
  simp [gaps, List.countP_cons]

theorem lineGaps_map_add (n : Nat) (is : List Nat) :
    Spacing.lineGaps (is.map (n + ·)) = List.replicate (gaps is) .proseGap := by
  induction is with
  | nil => rfl
  | cons m is ih =>
    cases is with
    | nil => rfl
    | cons k is =>
      have hdiff : n + k - (n + m) = k - m := Nat.add_sub_add_left n k m
      rw [List.map_cons, List.map_cons, Spacing.lineGaps, ← List.map_cons, ih, gaps_cons_cons, hdiff,
        Spacing.expectedMarks]
      split
      · rw [Nat.add_comm, List.replicate_add]
        rfl
      · rfl

theorem checkLines_eq_spacing (n : Nat) (policy : Policy) (ls : List (List Char)) :
    Spacing.checkLines policy ((proseIndexes ls).map (n + ·)) ((ls.findIdx? isTag).map (n + ·)) =
      spacing policy ls := by
  rw [Spacing.checkLines, spacing, List.getLast?_map, lineGaps_map_add]
  cases hlast : (proseIndexes ls).getLast? with
  | none => rfl
  | some last =>
    cases hj : ls.findIdx? isTag with
    | none => rfl
    | some j =>
      obtain ⟨hlt, -⟩ := blank_between hlast hj
      have hdiff : n + j - (n + last) = j - last := Nat.add_sub_add_left n j last
      have hone : (j - last < 2) = (j - last = 1) := by
        rw [eq_iff_iff]
        omega
      simp only [Option.map_some, Spacing.tagSeparation, Spacing.expectedMarks, hdiff, hone]

end DocLines

/-- The comment among the tokens around it. -/
theorem Sketch.exists_tokens_docLines (front more : List Sketch.Part) (ls : List (List Char)) :
    ∃ p after, Sketch.tokens (front ++ .docLines ls :: more) =
      Sketch.tokens front ++ ((closedAt p (docInner ls)).tokens ++ after) := by
  have hpieces : (Part.docLines ls).pieces = pieces (opening ++ (docInner ls ++ closing)) := by
    rw [← docText_eq]
    rfl
  rw [tokens, List.flatMap_append, List.flatMap_cons, Piece.place_append, Piece.place_append, hpieces,
    ← tokens_closedAt]
  exact ⟨_, _, rfl⟩

/-- The layout of a comment that is put together from lines is decided by the indexes of its lines, whatever stands
around the comment.  All lines between the last line of prose and the first tag are blank. -/
theorem check_docLines {ls : List (List Char)} (h : ∀ l ∈ ls, '\n' ∉ l) (front more : List Sketch.Part)
    (policy : Policy) :
    ∃ b, Block.extract (.ofTokens (Sketch.tokens (front ++ .docLines ls :: more)))
        (Sketch.tokens front).length = .ok b ∧
      Spacing.check policy b = DocLines.spacing policy ls ∧
      ∀ last ∈ (DocLines.proseIndexes ls).getLast?, ∀ j ∈ ls.findIdx? DocLines.isTag,
        last < j ∧ ∀ k l, last < k → k < j → ls[k]? = some l → l.all isBlank = true := by
  obtain ⟨p, after, htokens⟩ := Sketch.exists_tokens_docLines front more ls
  have hcontents : ((closedAt p (docInner ls)).block (Sketch.tokens front).length).contents = DocLines.contents ls := by
    rw [contents_closedAt, DocLines.bodyPieces_docInner h, DocLines.ofPieces_innerPieces]
  refine ⟨(closedAt p (docInner ls)).block (Sketch.tokens front).length, ?_, ?_, fun last hlast j hj =>
    DocLines.blank_between hlast hj⟩
  · rw [htokens]
    exact Stream.ClosedComment.extract_ofTokens _ _
  · have htag : ((DocLines.contents ls).tags.map fun t => (t.pos, t.name)).head?.map Prod.fst =
        (ls.findIdx? DocLines.isTag).map (1 + ·) := by
      rw [List.head?_map, Option.map_map, ← DocLines.head?_tags]
      rfl
    have hprose : (DocLines.contents ls).prose.map Prose.pos = (DocLines.proseIndexes ls).map (1 + ·) :=
      DocLines.map_pos_prose 1 ls
    rw [Spacing.check_eq_checkLines (Stream.ClosedComment.ordered_block _), Block.proseLines_eq, Block.tagLines_eq,
      hcontents, htag, hprose, DocLines.checkLines_eq_spacing]

/-- Blank lines of all sorts, a line with a closing inside and a tag right behind it, after a comment left open. -/
theorem check_docLines_of_odd_lines :
    ∃ ls : List (List Char), ls = ["a".toList, " \u00a0".toList, "\t\r".toList, "* b */".toList, " @p x".toList] ∧
      (∀ l ∈ ls, '\n' ∉ l) ∧
      ∃ b, Block.extract (.ofTokens (Sketch.tokens [.doc "/** c".toList, .docLines ls, .code "f()".toList]))
          (Sketch.tokens [.doc "/** c".toList]).length = .ok b ∧
        Spacing.check .block b = [.proseGap, .tagSeparation 1 .error] := by
  have h : ∀ l ∈ ["a".toList, " \u00a0".toList, "\t\r".toList, "* b */".toList, " @p x".toList], '\n' ∉ l := by
    decide +kernel
  obtain ⟨b, hb, hcheck, -⟩ := check_docLines h [.doc "/** c".toList] [.code "f()".toList] .block
  exact ⟨_, rfl, h, b, hb, hcheck.trans (by decide +kernel)⟩

end DocLint
