import DocLint.Proofs.Listing
import DocLint.Report

/-!
# Stable listings

Sorting keeps what has the same key in the order in which it was found.  So a choice of violations is listed in the
order of all of them, and a listing is decided by the runs of equal keys: lists with the same runs are sorted alike,
however the runs are interleaved.
-/
namespace DocLint

open Std (TransCmp OrientedCmp LawfulEqOrd)

/-- A comparison by which a list can be sorted. -/
structure Ranking {α : Type} (le : α → α → Bool) : Prop where
  trans : ∀ a b c, le a b = true → le b c = true → le a c = true
  total : ∀ a b, (le a b || le b a) = true

/-- Neither of two elements has to precede the other. -/
def tied {α : Type} (le : α → α → Bool) (a b : α) : Bool := le a b && le b a

namespace Ranking

variable {α ι : Type} {le : α → α → Bool} (h : Ranking le)
include h

theorem refl (a : α) : le a a = true := by
  have ht := h.total a a
  rwa [Bool.or_self] at ht

theorem pairwise_mergeSort (l : List α) : (l.mergeSort le).Pairwise fun a b => le a b = true :=
  List.pairwise_mergeSort h.trans h.total l

/-- A new first element goes right before all that it may precede. -/
theorem exists_mergeSort_cons (a : α) (l : List α) :
    ∃ before after, l.mergeSort le = before ++ after ∧ (a :: l).mergeSort le = before ++ a :: after ∧
      (∀ b ∈ before, le a b = false) ∧ ∀ b ∈ after, le a b = true := by
  obtain ⟨before, after, hcons, hl, hbefore⟩ := List.mergeSort_cons h.trans h.total a l
  have hsorted := h.pairwise_mergeSort (a :: l)
  rw [hcons] at hsorted
  refine ⟨before, after, hl, hcons, fun b hb => by simpa using hbefore b hb, ?_⟩
  exact (List.pairwise_cons.1 (List.pairwise_append.1 hsorted).2.1).1

/-- A listing splits in one way into what `a` may not precede and what it may. -/
theorem mergeSort_cons (a : α) (l : List α) :
    (a :: l).mergeSort le = (l.mergeSort le).filter (fun b => !le a b) ++ a :: (l.mergeSort le).filter (le a) := by
  obtain ⟨before, after, hl, hcons, hbefore, hafter⟩ := h.exists_mergeSort_cons a l
  have hkept : before.filter (fun b => !le a b) = before := List.filter_eq_self.2 (by simpa using hbefore)
  have hleft : after.filter (fun b => !le a b) = [] := List.filter_eq_nil_iff.2 (by simpa using hafter)
  have hgone : before.filter (le a) = [] := List.filter_eq_nil_iff.2 (by simpa using hbefore)
  rw [hcons, hl, List.filter_append, List.filter_append, hkept, hleft, hgone, List.filter_eq_self.2 hafter,
    List.append_nil, List.nil_append]

/-- What a partial map that respects the ranking keeps is listed in the order of all. -/
theorem filterMap_mergeSort {g : α → Option α} {l : List α}
    (hg : ∀ a ∈ l, ∀ b ∈ l, ∀ a' ∈ g a, ∀ b' ∈ g b, le a' b' = le a b) :
    (l.mergeSort le).filterMap g = (l.filterMap g).mergeSort le := by
  induction l with
  | nil => simp
  | cons a l ih =>
    have ih := ih fun b hb c hc => hg b (List.mem_cons_of_mem a hb) c (List.mem_cons_of_mem a hc)
    obtain ⟨before, after, hl, hcons, hbefore, hafter⟩ := h.exists_mergeSort_cons a l
    have hmem : ∀ b ∈ before ++ after, b ∈ a :: l := by
      intro b hb
      rw [← hl] at hb
      exact List.mem_cons_of_mem a (List.mem_mergeSort.1 hb)
    cases ha : g a with
    | none =>
      rw [List.filterMap_cons_none ha, ← ih, hl, hcons, List.filterMap_append, List.filterMap_append,
        List.filterMap_cons_none ha]
    | some a' =>
      -- Before and after `a` stand exactly those whose images stand before and after the image of `a`.
      have hrank : ∀ b ∈ before ++ after, ∀ b' ∈ g b, le a' b' = le a b := by
        intro b hb b' hb'
        exact hg a (by simp) b (hmem b hb) a' ha b' hb'
      have hfirst : ∀ b' ∈ before.filterMap g, le a' b' = false := by
        intro b' hb'
        obtain ⟨b, hb, hgb⟩ := List.mem_filterMap.1 hb'
        rw [hrank b (List.mem_append_left _ hb) b' hgb, hbefore b hb]
      have hlast : ∀ b' ∈ after.filterMap g, le a' b' = true := by
        intro b' hb'
        obtain ⟨b, hb, hgb⟩ := List.mem_filterMap.1 hb'
        rw [hrank b (List.mem_append_right _ hb) b' hgb, hafter b hb]
      rw [hcons, List.filterMap_cons_some ha, h.mergeSort_cons a', ← ih, hl]
      simp only [List.filterMap_append, List.filter_append, List.filterMap_cons_some ha]
      rw [List.filter_eq_self.2 (by simpa using hfirst), List.filter_eq_nil_iff.2 (by simpa using hlast),
        List.filter_eq_nil_iff.2 (by simpa using hfirst), List.filter_eq_self.2 hlast, List.append_nil,
        List.nil_append]

/-- A choice is listed in the order of all. -/
theorem filter_mergeSort (p : α → Bool) (l : List α) :
    (l.mergeSort le).filter p = (l.filter p).mergeSort le := by
  rw [← List.filterMap_eq_filter]
  apply h.filterMap_mergeSort
  intro a _ b _ a' ha b' hb
  rw [Option.mem_def, Option.guard_eq_some_iff] at ha hb
  rw [ha.1, hb.1]

/-- The first of a sorted list may precede every member. -/
theorem le_of_mem {a b : α} {l : List α} (hl : (a :: l).Pairwise fun a b => le a b = true) (hb : b ∈ a :: l) :
    le a b = true := by
  cases hb with
  | head => exact h.refl a
  | tail _ hb => exact (List.pairwise_cons.1 hl).1 b hb

/-- A sorted list is decided by its runs of equal rank. -/
theorem eq_of_ties {l m : List α} (hl : l.Pairwise fun a b => le a b = true) (hm : m.Pairwise fun a b => le a b = true)
    (ties : ∀ x, l.filter (tied le x) = m.filter (tied le x)) : l = m := by
  have hself : ∀ a, tied le a a = true := by
    intro a
    simp [tied, h.refl a]
  have hmem : ∀ {k n : List α}, (∀ x, k.filter (tied le x) = n.filter (tied le x)) → ∀ a ∈ k, a ∈ n := by
    intro k n hkn a ha
    have hka : a ∈ k.filter (tied le a) := List.mem_filter.2 ⟨ha, hself a⟩
    rw [hkn a] at hka
    exact (List.mem_filter.1 hka).1
  induction l generalizing m with
  | nil =>
    cases m with
    | nil => rfl
    | cons b m => exact absurd (hmem (fun x => (ties x).symm) b (by simp)) List.not_mem_nil
  | cons a l ih =>
    cases m with
    | nil => exact absurd (hmem ties a (by simp)) List.not_mem_nil
    | cons b m =>
      have hab : le a b = true := h.le_of_mem hl (hmem (fun x => (ties x).symm) b (by simp))
      have hba : le b a = true := h.le_of_mem hm (hmem ties a (by simp))
      have heads := ties a
      rw [List.filter_cons_of_pos (hself a), List.filter_cons_of_pos (by simp [tied, hab, hba])] at heads
      obtain rfl := (List.cons.inj heads).1
      rw [ih (List.pairwise_cons.1 hl).2 (List.pairwise_cons.1 hm).2]
      intro x
      have hx := ties x
      rw [List.filter_cons, List.filter_cons] at hx
      split at hx
      · exact (List.cons.inj hx).2
      · exact hx

/-- Lists with the same runs of equal rank are sorted alike. -/
theorem mergeSort_eq_of_ties {l m : List α} (ties : ∀ x, l.filter (tied le x) = m.filter (tied le x)) :
    l.mergeSort le = m.mergeSort le := by
  apply h.eq_of_ties (h.pairwise_mergeSort l) (h.pairwise_mergeSort m)
  intro x
  rw [h.filter_mergeSort, h.filter_mergeSort, ties x]

theorem tied_of_tied {a b x : α} (ha : tied le x a = true) (hb : tied le x b = true) : tied le a b = true := by
  simp only [tied, Bool.and_eq_true] at ha hb ⊢
  exact ⟨h.trans a x b ha.2 hb.1, h.trans b x a hb.2 ha.1⟩

/-- Where no member of one part ties with a member of another, the order of the parts does not matter. -/
theorem mergeSort_flatMap_perm {is js : List ι} {g : ι → List α} (hp : is.Perm js)
    (apart : is.Pairwise fun i j => ∀ a ∈ g i, ∀ b ∈ g j, tied le a b = false) :
    (is.flatMap g).mergeSort le = (js.flatMap g).mergeSort le := by
  apply h.mergeSort_eq_of_ties
  intro x
  induction hp with
  | nil => rfl
  | cons i _ ih =>
    rw [List.flatMap_cons, List.flatMap_cons, List.filter_append, List.filter_append,
      ih (List.pairwise_cons.1 apart).2]
  | swap i j rest =>
    have hij := (List.pairwise_cons.1 apart).1 i (by simp)
    simp only [List.flatMap_cons, List.filter_append]
    by_cases hj : (g j).filter (tied le x) = []
    · rw [hj, List.nil_append, List.nil_append]
    · -- Something in the part of `j` ties with `x`, so nothing in the part of `i` does.
      obtain ⟨a, ha⟩ := List.exists_mem_of_ne_nil _ hj
      rw [List.mem_filter] at ha
      have hi : (g i).filter (tied le x) = [] := by
        apply List.filter_eq_nil_iff.2
        intro b hb hxb
        have hab := h.tied_of_tied ha.2 hxb
        rw [hij a ha.1 b hb] at hab
        cases hab
      rw [hi, List.nil_append, List.nil_append]
  | trans hik _ ih₁ ih₂ =>
    rw [ih₁ apart, ih₂]
    apply hik.pairwise apart
    intro i j hij b hb a ha
    have hab := hij a ha b hb
    rwa [tied, Bool.and_comm] at hab

end Ranking

theorem ranking_of_cmp {α : Type} (cmp : α → α → Ordering) [TransCmp cmp] : Ranking fun a b => (cmp a b).isLE where
  trans _ _ _ := TransCmp.isLE_trans
  total a b := by
    have hswap : cmp b a = (cmp a b).swap := OrientedCmp.eq_swap
    rw [hswap]
    cases cmp a b <;> rfl

theorem eq_of_tied {α : Type} {cmp : α → α → Ordering} [OrientedCmp cmp] {a b : α}
    (h : tied (fun a b => (cmp a b).isLE) a b = true) : cmp a b = .eq := by
  have hswap : cmp b a = (cmp a b).swap := OrientedCmp.eq_swap
  rw [tied, hswap] at h
  cases hab : cmp a b <;> simp_all

/-! ## Violations and failures -/

instance : LawfulEqOrd Path.Component where
  eq_of_compare {a b} hab := by
    obtain ⟨hrank, hname⟩ := compareLex_eq_eq.1 hab
    have hrank : a.rank = b.rank := LawfulEqOrd.eq_of_compare hrank
    have hname : a.name = b.name := LawfulEqOrd.eq_of_compare hname
    cases a <;> cases b <;> simp_all [Path.Component.rank, Path.Component.name]

/-- Only paths with the same components have no order. -/
theorem Path.components_of_order_eq {p q : Path} (h : Path.order p q = .eq) : p.components = q.components :=
  LawfulEqOrd.eq_of_compare (α := List Path.Component) h

namespace Violation

/-- A choice of violations is listed in the order of all. -/
theorem filter_sorted (p : Violation → Bool) (vs : List Violation) : (sorted vs).filter p = sorted (vs.filter p) :=
  (ranking_of_cmp order).filter_mergeSort p vs

/-- Violations that tie are in the same file. -/
theorem components_of_tied {v w : Violation} (h : tied (fun a b : Violation => (order a b).isLE) v w = true) :
    v.location.file.components = w.location.file.components := by
  have heq := eq_of_tied h
  rw [order, compareLex_eq_eq] at heq
  exact Path.components_of_order_eq heq.1

end Violation

namespace FileFailure

/-- The order in which failures are listed. -/
def order (a b : FileFailure) : Ordering := Path.order a.file b.file

instance : TransCmp order where
  eq_swap {a b} := (OrientedCmp.eq_swap : Path.order a.file b.file = (Path.order b.file a.file).swap)
  isLE_trans {a b _} := (TransCmp.isLE_trans : (Path.order a.file b.file).isLE = true → _)

/-- Failures that tie are of the same file. -/
theorem components_of_tied {a b : FileFailure} (h : tied (fun a b => (order a b).isLE) a b = true) :
    a.file.components = b.file.components :=
  Path.components_of_order_eq (eq_of_tied h)

end FileFailure
end DocLint
