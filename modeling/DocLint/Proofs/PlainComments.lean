import DocLint.Proofs.Locality
import DocLint.Proofs.SameFindings

/-!
# Plain comments are invisible

Comments that are dropped can be overwritten by blanks.  The slices around them are found again at the same line and
column, because each of them ends by itself before the comment; the blanks leave no landmark.  So the report is the
same, up to byte offsets.
-/
namespace DocLint

open DocLint.Text

namespace Slice

/-- A slice, with blanks in place of a comment that is dropped.  Line feeds stay. -/
def blanked (s : Slice) : List Char :=
  if s.cls = .dropped then s.text.map fun c => if c = '\n' then c else ' ' else s.text

end Slice

/-- A script in which the comments that are dropped are overwritten. -/
def blankComments (source : List Char) : List Char := (Slice.ofText source).flatMap Slice.blanked

namespace Slice

theorem blankComments_cons (c : Char) (cs : List Char) : blankComments (c :: cs) =
    blanked ⟨(measure c cs).1, c :: cs.take (measure c cs).2⟩ ++ blankComments (cs.drop (measure c cs).2) := by
  rw [blankComments, ofText_cons, List.flatMap_cons]
  rfl

theorem isGap_of_mem_blanked {s : Slice} (h : s.cls = .dropped) {c : Char} (hc : c ∈ s.blanked) : isGap c = true := by
  rw [blanked, if_pos h] at hc
  obtain ⟨d, -, rfl⟩ := List.mem_map.1 hc
  split
  · next hd => rw [hd]; decide
  · decide

theorem same_advance_blanked {p q : Position} (h : p.Same q) (s : Slice) :
    (p.advance s.blanked).Same (q.advance s.text) := by
  unfold blanked
  split
  · generalize s.text = text
    induction text generalizing p q with
    | nil => exact h
    | cons c text ih =>
      refine ih (h.next ?_)
      by_cases hc : c = '\n'
      · simp [hc]
      · simp [hc]
  · exact h.advance s.text

/-- Up to the first comment that is dropped, the texts are the same. -/
theorem exists_parted (cs : List Char) : ∃ a u u', cs = a ++ u ∧ blankComments cs = a ++ u' ∧ Parted u u' := by
  fun_induction ofText cs with
  | case1 => exact ⟨[], [], [], rfl, by simp [blankComments, ofText], .ended⟩
  | case2 c cs cls n hm ih =>
    have hcons := blankComments_cons c cs
    rw [hm] at hcons
    by_cases hd : cls = .dropped
    · have hkind : ∀ k, (measure c cs).1 ≠ .token k := by simp [hm, hd]
      obtain ⟨rfl, -⟩ := measure_eq_measureSlash hkind
      refine ⟨[], _, _, rfl, hcons, ?_⟩
      rw [blanked, if_pos hd]
      exact .slash (.inr rfl)
    · obtain ⟨a, u, u', hu, hu', hp⟩ := ih
      rw [blanked, if_neg hd, hu'] at hcons
      refine ⟨c :: cs.take n ++ a, u, u', ?_, ?_, hp⟩
      · rw [List.append_assoc, ← hu, List.cons_append, List.take_append_drop]
      · rw [hcons, List.append_assoc]

/-- A slice that is kept and no blank is found again, before the overwritten remainder. -/
theorem ofText_blankComments {c : Char} {cs : List Char} (hd : (measure c cs).1 ≠ .dropped)
    (hc : isInlineBlank c = false) : ofText (blankComments (c :: cs)) =
      ⟨(measure c cs).1, c :: cs.take (measure c cs).2⟩ :: ofText (blankComments (cs.drop (measure c cs).2)) := by
  rw [blankComments_cons, blanked, if_neg hd]
  generalize hn : (measure c cs).2 = n
  obtain ⟨a, u, u', hu, hu', hp⟩ := exists_parted (cs.drop n)
  have hcs : (cs.take n ++ a) ++ u = cs := by rw [List.append_assoc, ← hu, List.take_append_drop]
  have hmeasure : measure c (cs.take n ++ blankComments (cs.drop n)) = measure c cs := by
    rw [hu', ← List.append_assoc]
    cases hp with
    | ended => rw [hcs]
    | @slash e u v he =>
      have hlen := congrArg List.length hu
      have hle : (measure c ((cs.take n ++ a) ++ '/' :: u)).2 ≤ (cs.take n ++ a).length := by
        rw [List.length_drop, List.length_append, List.length_cons] at hlen
        rw [hcs, hn, List.length_append, List.length_take]
        omega
      rw [measure_congr (.slash he) hle (by simp [hc]), hcs]
  rw [List.cons_append, ofText_cons, hmeasure, hn]
  -- A lexeme that takes all that is left is followed by nothing in both texts.
  by_cases hle : n ≤ cs.length
  · rw [List.take_left' (List.length_take_of_le hle), List.drop_left' (List.length_take_of_le hle)]
  · have hnil : cs.drop n = [] := List.drop_eq_nil_of_le (by omega)
    simp [hnil, blankComments, ofText, List.take_take]

/-- Overwriting leaves the landmarks where they are. -/
theorem landmarks_blankComments {p q : Position} (h : p.Same q) (cs : List Char) :
    landmarks p (ofText (blankComments cs)) = landmarks q (ofText cs) := by
  fun_induction ofText cs generalizing p q with
  | case1 => simp [blankComments, ofText, landmarks]
  | case2 c cs cls n hm ih =>
    have hrest := ih (same_advance_blanked h ⟨cls, c :: cs.take n⟩)
    rw [landmarks, ← hrest]
    by_cases hd : cls = .dropped
    · have hcons := blankComments_cons c cs
      rw [hm] at hcons
      subst hd
      rw [hcons, landmarks_gaps fun d => isGap_of_mem_blanked rfl]
      rfl
    · by_cases hc : isInlineBlank c = true
      · -- Blanks may run on into the comment after them, so only the landmarks are found again.
        have hcons := blankComments_cons c cs
        obtain ⟨rfl, rfl⟩ := Prod.mk.inj (hm.symm.trans (measure_blank hc cs))
        have hgap : ∀ d ∈ c :: cs.takeWhile isInlineBlank, isGap d = true := by
          intro d hd
          have hblank : isInlineBlank d = true := by
            cases hd with
            | head => exact hc
            | tail _ hd => exact List.all_eq_true.1 List.all_takeWhile d hd
          simp [isGap, hblank]
        rw [hm] at hcons
        rw [hcons, blanked, if_neg hd, take_length_takeWhile, landmarks_gaps hgap]
        rfl
      · have hkept : (measure c cs).1 ≠ .dropped := by rwa [hm]
        have hagain := ofText_blankComments hkept (Bool.eq_false_iff.2 hc)
        rw [hm] at hagain
        rw [hagain, landmarks, landmark?_same h, blanked, if_neg hd]

end Slice

theorem withoutByteOrderMark_blankComments (source : List Char) :
    withoutByteOrderMark (blankComments source) = blankComments (withoutByteOrderMark source) := by
  by_cases hmark : source.head? = some '\uFEFF'
  · obtain ⟨cs, rfl⟩ := List.head?_eq_some_iff.1 hmark
    rw [blankComments, Slice.ofText_symbol (by decide)]
    rfl
  · obtain ⟨a, u, u', hu, hu', hp⟩ := Slice.exists_parted source
    have hblank : (blankComments source).head? ≠ some '\uFEFF' := by
      rw [hu] at hmark
      rw [hu']
      cases a with
      | nil =>
        cases hp with
        | ended => simp
        | slash he => rcases he with rfl | rfl <;> simp
      | cons c a => exact hmark
    rw [withoutByteOrderMark_eq_self hmark, withoutByteOrderMark_eq_self hblank]

/-- Overwriting the comments that are dropped does not change the report. -/
theorem analyzeSource_blankComments {c : Config} {rules : RuleSet} (h : RuleSet.ofConfig c = .ok rules) (path : Path)
    (source : List Char) :
    ∃ vs ws, analyzeSource .javaScript c rules path source = .ok vs ∧
      analyzeSource .javaScript c rules path (blankComments source) = .ok ws ∧ SameReport vs ws := by
  have hlandmarks : landmarksOf source = landmarksOf (blankComments source) := by
    rw [landmarksOf, landmarksOf, withoutByteOrderMark_blankComments, Slice.landmarks_blankComments ⟨rfl, rfl⟩]
  exact ⟨_, _, rfl, rfl, sameReport_of_landmarks h path hlandmarks⟩

theorem analyzeSource_blankComments_in_params :
    RuleSet.ofConfig {} = .ok RuleSet.standardRules ∧
    blankComments "/** a */ function (x/*,\n*/,y) // end".toList =
      "/** a */ function (x   \n  ,y)       ".toList ∧
    ∃ vs ws, analyzeSource .javaScript {} RuleSet.standardRules (.ofString "a.js")
        "/** a */ function (x/*,\n*/,y) // end".toList = .ok vs ∧
      analyzeSource .javaScript {} RuleSet.standardRules (.ofString "a.js")
        (blankComments "/** a */ function (x/*,\n*/,y) // end".toList) = .ok ws ∧ SameReport vs ws := by
  have h : RuleSet.ofConfig {} = .ok RuleSet.standardRules := RuleSet.standard_eq
  have hblank : blankComments "/** a */ function (x/*,\n*/,y) // end".toList =
      "/** a */ function (x   \n  ,y)       ".toList := by decide +kernel
  exact ⟨h, hblank, analyzeSource_blankComments h (.ofString "a.js") _⟩

end DocLint
