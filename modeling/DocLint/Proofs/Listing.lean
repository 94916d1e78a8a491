import DocLint.Violation

/-!
# The order of a listing

Violations are listed by place, code and message.  The order is total, and it tells apart all that differ in one
of these; a collection in which equal keys mean equal violations is therefore listed in one way only.
-/
namespace DocLint

open Std (TransCmp OrientedCmp LawfulEqOrd)

instance : Std.TransOrd Path.Component :=
  inferInstanceAs (TransCmp (compareLex (compareOn Path.Component.rank) (compareOn Path.Component.name)))

instance : TransCmp Path.order := inferInstanceAs (TransCmp (compareOn Path.components))

namespace Violation

instance : TransCmp (fun a b : Violation => Path.order a.location.file b.location.file) where
  eq_swap := OrientedCmp.eq_swap
  isLE_trans := TransCmp.isLE_trans

instance : TransCmp order :=
  inferInstanceAs (TransCmp (compareLex (fun a b : Violation => Path.order a.location.file b.location.file) <|
    compareLex (compareOn (·.location.line)) <| compareLex (compareOn (·.location.column)) <|
    compareLex (compareOn (·.code)) (compareOn (·.message))))

/-- Only violations with the same line, column, code and message have no order. -/
theorem eq_of_order_eq {a b : Violation} (h : order a b = .eq) :
    a.location.line = b.location.line ∧ a.location.column = b.location.column ∧ a.code = b.code ∧
      a.message = b.message := by
  simp only [order, compareLex_eq_eq, compareOn] at h
  obtain ⟨-, hline, hcolumn, hcode, hmessage⟩ := h
  exact ⟨LawfulEqOrd.eq_of_compare hline, LawfulEqOrd.eq_of_compare hcolumn,
    LawfulEqOrd.eq_of_compare hcode, LawfulEqOrd.eq_of_compare hmessage⟩

theorem order_swap (a b : Violation) : order a b = (order b a).swap := OrientedCmp.eq_swap

theorem order_total (a b : Violation) : ((order a b).isLE || (order b a).isLE) = true := by
  rw [order_swap b a]
  cases order a b <;> rfl

theorem sorted_perm (vs : List Violation) : (sorted vs).Perm vs := List.mergeSort_perm vs _

theorem pairwise_sorted (vs : List Violation) : (sorted vs).Pairwise fun a b => (order a b).isLE = true :=
  List.pairwise_mergeSort (fun _ _ _ => TransCmp.isLE_trans) order_total vs

/-- Whatever has the same key is the same. -/
def Keyed (vs : List Violation) : Prop := ∀ a ∈ vs, ∀ b ∈ vs, order a b = .eq → a = b

/-- Keyed violations are put in order in one way only. -/
theorem Keyed.eq_sorted {vs ws : List Violation} (hv : Keyed vs) (h : ws.Perm vs)
    (hw : ws.Pairwise fun a b => (order a b).isLE = true) : ws = sorted vs := by
  have hp : ws.Perm (sorted vs) := h.trans (sorted_perm vs).symm
  refine hp.eq_of_pairwise (fun a b ha hb hab hba => ?_) hw (pairwise_sorted vs)
  have hb' : b ∈ vs := (sorted_perm vs).mem_iff.1 hb
  refine hv a (h.mem_iff.1 ha) b hb' ?_
  rw [order_swap b a] at hba
  cases ho : order a b <;> simp_all

/-- However keyed violations are collected, they are listed in one way. -/
theorem Keyed.sorted_eq {vs ws : List Violation} (hv : Keyed vs) (h : ws.Perm vs) : sorted ws = sorted vs :=
  hv.eq_sorted ((sorted_perm ws).trans h) (pairwise_sorted ws)

/-- A choice of keyed violations is listed in the order of all. -/
theorem Keyed.filter_sorted {vs ws : List Violation} {p : Violation → Bool} (hv : Keyed vs)
    (h : (vs.filter p).Perm ws) : (sorted vs).filter p = sorted ws := by
  have hws : Keyed ws := by
    intro a ha b hb
    exact hv a (List.mem_filter.1 (h.mem_iff.2 ha)).1 b (List.mem_filter.1 (h.mem_iff.2 hb)).1
  exact hws.eq_sorted (((sorted_perm vs).filter p).trans h) (.filter p (pairwise_sorted vs))

/-- What does not change the order does not change the listing. -/
theorem map_sorted {f : Violation → Violation} {vs : List Violation}
    (h : ∀ a ∈ vs, ∀ b ∈ vs, order (f a) (f b) = order a b) : (sorted vs).map f = sorted (vs.map f) := by
  refine List.map_mergeSort fun a ha b hb => ?_
  rw [h a ha b hb]

end Violation
end DocLint
