import DocLint.Message
import Mathlib.Data.Nat.Find

/-!
# Messages as pieces and arguments

A template is cut at its first place, then at the first place of what is left, and so on.  The text of a message is
made of these pieces with the arguments between them.  A place for which no argument is left stands as it is, and what
an argument holds has no say in where the pieces and the other arguments go.
-/
namespace DocLint.Message

/-- The first place of a text, given by what stands before it and what stands behind it. -/
structure FirstPlace (text before after : List Char) : Prop where
  eq : text = before ++ (place ++ after)
  leftmost : ∀ u v, text = u ++ (place ++ v) → before.length ≤ u.length

/-- What is left of a text without its places: the piece before the first one, and one piece behind each of them. -/
structure Pieces where
  first : List Char
  others : List (List Char)
  deriving DecidableEq, Repr

namespace Pieces

/-- The number of places that the pieces leave between them. -/
def places (p : Pieces) : Nat := p.others.length

/-- The pieces with the arguments between them: at each place the argument of its number, or the place itself if there
is no such argument. -/
def interleave (p : Pieces) (args : List (List Char)) : List Char :=
  p.first ++ (p.others.mapIdx fun i piece => args.getD i place ++ piece).flatten

end Pieces

/-- A text and its pieces, where each cut is made at the first place of what is left. -/
inductive Cuts : List Char → Pieces → Prop
  | whole {text : List Char} (hnone : ¬place <:+: text) : Cuts text ⟨text, []⟩
  | atPlace {text before after : List Char} {p : Pieces} (hfirst : FirstPlace text before after)
      (hafter : Cuts after p) : Cuts text ⟨before, p.first :: p.others⟩

variable {text before after : List Char}

/-! ## The first place -/

namespace FirstPlace

theorem isInfix (h : FirstPlace text before after) : place <:+: text :=
  ⟨before, after, by rw [h.eq, List.append_assoc]⟩

theorem length_lt (h : FirstPlace text before after) : after.length < text.length := by
  rw [h.eq, List.length_append, List.length_append]
  simp only [place, List.length_cons]
  omega

theorem unique {before' after' : List Char} (h : FirstPlace text before after)
    (h' : FirstPlace text before' after') : before = before' ∧ after = after' := by
  have hlength : before.length = before'.length :=
    Nat.le_antisymm (h.leftmost before' after' h'.eq) (h'.leftmost before after h.eq)
  obtain ⟨hbefore, hbehind⟩ := List.append_inj (h.eq.symm.trans h'.eq) hlength
  exact ⟨hbefore, List.append_cancel_left hbehind⟩

end FirstPlace

theorem exists_firstPlace (h : place <:+: text) : ∃ before after, FirstPlace text before after := by
  obtain ⟨u, v, huv⟩ := h
  classical
  -- The first place is the one with the least before it.
  have hex : ∃ n b a, b.length = n ∧ text = b ++ (place ++ a) :=
    ⟨u.length, u, v, rfl, by rw [← huv, List.append_assoc]⟩
  obtain ⟨before, after, hlength, heq⟩ := Nat.find_spec hex
  refine ⟨before, after, heq, fun b a hba => ?_⟩
  rw [hlength]
  exact Nat.find_min' hex ⟨b, a, rfl, hba⟩

/-! ## Filling up to a place -/

theorem fill_of_not_isInfix (h : ¬place <:+: text) (args : List (List Char)) : fill text args = text := by
  have hkept : fill (text ++ []) args = text ++ fill [] args := by
    apply fill_append
    rintro x c y rfl hplace
    rw [List.append_nil] at hplace
    exact h (hplace.isInfix.trans (List.suffix_append x (c :: y)).isInfix)
  simpa [fill] using hkept

/-- One cut: what stands before the first place is kept, the place takes the next argument, and only what stands behind
it is looked at again. -/
theorem FirstPlace.fill_eq (h : FirstPlace text before after) (args : List (List Char)) :
    fill text args = before ++ (args.headD place ++ fill after args.tail) := by
  rw [h.eq, fill_append, fill_place]
  -- A place that begins in `before` would stand further left than the first one.
  rintro x c y rfl ⟨v, hv⟩
  have hle := h.leftmost x v (by rw [hv, h.eq, List.append_assoc, List.cons_append])
  rw [List.length_append, List.length_cons] at hle
  omega

/-! ## Pieces and arguments -/

namespace Pieces

theorem interleave_cons (first piece : List Char) (others args : List (List Char)) :
    (mk first (piece :: others)).interleave args =
      first ++ (args.headD place ++ (mk piece others).interleave args.tail) := by
  have hhead : args.getD 0 place = args.headD place := by
    cases args <;> rfl
  have htail : ∀ i, args.getD (i + 1) place = args.tail.getD i place := by
    intro i
    cases args <;> rfl
  simp only [interleave, List.mapIdx_cons, List.flatten_cons, hhead, htail, List.append_assoc]

/-- Arguments without a place are left out. -/
theorem interleave_take (p : Pieces) (args : List (List Char)) :
    p.interleave (args.take p.places) = p.interleave args := by
  have hsame : ∀ i, i < p.places → (args.take p.places).getD i place = args.getD i place := by
    intro i hi
    rw [List.getD_eq_getElem?_getD, List.getElem?_take_of_lt hi, List.getD_eq_getElem?_getD]
  rw [interleave, interleave, List.mapIdx_eq_mapIdx_iff.2 fun i hi => by rw [hsame i hi]]

/-- An argument with a place stands in the text as it is, between texts that do not depend on it. -/
theorem exists_interleave_eq (p : Pieces) (front back : List (List Char)) (h : front.length < p.places) :
    ∃ start rest, ∀ a, p.interleave (front ++ a :: back) = start ++ (a ++ rest) := by
  obtain ⟨first, others⟩ := p
  induction front generalizing first others with
  | nil =>
    cases others with
    | nil => simp [places] at h
    | cons piece others =>
      exact ⟨first, (mk piece others).interleave back, fun a => interleave_cons first piece others (a :: back)⟩
  | cons b front ih =>
    cases others with
    | nil => simp [places] at h
    | cons piece others =>
      obtain ⟨start, rest, heq⟩ := ih piece others (Nat.lt_of_succ_lt_succ h)
      refine ⟨first ++ (b ++ start), rest, fun a => ?_⟩
      rw [List.cons_append, interleave_cons, List.headD_cons, List.tail_cons, heq]
      simp only [List.append_assoc]

end Pieces

/-! ## Cutting a template -/

theorem exists_cuts (text : List Char) : ∃ p, Cuts text p := by
  by_cases h : place <:+: text
  · obtain ⟨before, after, hfirst⟩ := exists_firstPlace h
    have hlt := hfirst.length_lt
    obtain ⟨p, hp⟩ := exists_cuts after
    exact ⟨_, .atPlace hfirst hp⟩
  · exact ⟨_, .whole h⟩
termination_by text.length

theorem Cuts.unique {p q : Pieces} (hp : Cuts text p) (hq : Cuts text q) : p = q := by
  induction hp generalizing q with
  | whole hnone =>
    cases hq with
    | whole => rfl
    | atPlace hfirst => exact absurd hfirst.isInfix hnone
  | atPlace hfirst _ ih =>
    cases hq with
    | whole hnone => exact absurd hfirst.isInfix hnone
    | atPlace hfirst' hafter =>
      obtain ⟨rfl, rfl⟩ := hfirst.unique hfirst'
      rw [ih hafter]

/-- The whole run, cut by cut. -/
theorem Cuts.fill_eq {p : Pieces} (h : Cuts text p) (args : List (List Char)) :
    fill text args = p.interleave args := by
  induction h generalizing args with
  | whole hnone =>
    rw [fill_of_not_isInfix hnone]
    simp [Pieces.interleave]
  | atPlace hfirst _ ih => rw [hfirst.fill_eq, ih, Pieces.interleave_cons]

/-- A template has its pieces, and no others, whatever the arguments are.  The text of the message is these pieces
interleaved with the arguments.  Arguments beyond the places make no difference, and one that has a place stands in the
text letter by letter, also if it holds a place itself or completes one: nothing around it depends on it. -/
theorem render_interleaves (template : String) :
    ∃ p : Pieces, (∀ q, Cuts template.toList q ↔ q = p) ∧
      (∀ args, (render template args).toList = p.interleave (args.map String.toList)) ∧
      (∀ args, render template (args.take p.places) = render template args) ∧
      ∀ front back, front.length < p.places →
        ∃ start rest, ∀ a, render template (front ++ a :: back) = start ++ a ++ rest := by
  obtain ⟨p, hp⟩ := exists_cuts template.toList
  have hrender : ∀ args, (render template args).toList = p.interleave (args.map String.toList) := by
    intro args
    rw [toList_render, hp.fill_eq]
  refine ⟨p, fun q => ⟨fun hq => hq.unique hp, fun hq => hq ▸ hp⟩, hrender, fun args => ?_, fun front back h => ?_⟩
  · apply String.toList_inj.1
    rw [hrender, hrender, List.map_take, p.interleave_take]
  · have hfront : (front.map String.toList).length < p.places := by rwa [List.length_map]
    obtain ⟨start, rest, heq⟩ := p.exists_interleave_eq _ (back.map String.toList) hfront
    refine ⟨String.ofList start, String.ofList rest, fun a => ?_⟩
    apply String.toList_inj.1
    rw [hrender, List.map_append, List.map_cons, heq]
    simp

-- A place behind a percent sign, an argument that holds a place, one that completes a place, and a place without one.
example : render "%%s, %ss and %s" ["%s", "100%"] = "%%s, 100%s and %s" := by decide

end DocLint.Message
