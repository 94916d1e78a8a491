import DocLint.Proofs.Run

/-!
# Regular patterns

Patterns over characters and the texts they match.  `Matches` is the usual reading; the lemmas below turn each
shape that the lexemes of a script use into a statement about lists.  `nullable` and `starts` say with which
character a match can begin, which is enough to tell most lexemes apart.
-/
namespace DocLint

inductive Pattern where
  | nothing
  | one (p : Char → Bool)
  | seq (a b : Pattern)
  | either (a b : Pattern)
  | many (a : Pattern)

namespace Pattern

inductive Matches : Pattern → List Char → Prop
  | nothing : Matches nothing []
  | one {p : Char → Bool} {c : Char} (h : p c = true) : Matches (one p) [c]
  | seq {a b : Pattern} {s t : List Char} (ha : Matches a s) (hb : Matches b t) : Matches (seq a b) (s ++ t)
  | left {a b : Pattern} {s : List Char} (h : Matches a s) : Matches (either a b) s
  | right {a b : Pattern} {s : List Char} (h : Matches b s) : Matches (either a b) s
  | done {a : Pattern} : Matches (many a) []
  | more {a : Pattern} {s t : List Char} (h : Matches a s) (ht : Matches (many a) t) :
      Matches (many a) (s ++ t)

/-- The character `c`. -/
def char (c : Char) : Pattern := one (· == c)

/-- A text, character by character. -/
def text (cs : List Char) : Pattern := cs.foldr (fun c a => seq (char c) a) nothing

/-- At least one. -/
def some (a : Pattern) : Pattern := seq a (many a)

def optional (a : Pattern) : Pattern := either nothing a

variable {a b : Pattern} {p : Char → Bool} {w : List Char}

theorem matches_nothing : nothing.Matches w ↔ w = [] := by
  constructor
  · rintro ⟨⟩
    rfl
  · rintro rfl
    exact .nothing

theorem matches_one : (one p).Matches w ↔ ∃ c, w = [c] ∧ p c = true := by
  constructor
  · rintro (_ | h)
    exact ⟨_, rfl, h⟩
  · rintro ⟨c, rfl, h⟩
    exact .one h

theorem matches_seq : (seq a b).Matches w ↔ ∃ s t, w = s ++ t ∧ a.Matches s ∧ b.Matches t := by
  constructor
  · rintro (_ | _ | ⟨ha, hb⟩)
    exact ⟨_, _, rfl, ha, hb⟩
  · rintro ⟨s, t, rfl, ha, hb⟩
    exact .seq ha hb

theorem matches_either : (either a b).Matches w ↔ a.Matches w ∨ b.Matches w := by
  constructor
  · rintro (_ | _ | _ | h | h)
    · exact .inl h
    · exact .inr h
  · rintro (h | h)
    · exact .left h
    · exact .right h

theorem matches_optional : (optional a).Matches w ↔ w = [] ∨ a.Matches w := by
  rw [optional, matches_either, matches_nothing]

theorem matches_char {c : Char} : (char c).Matches w ↔ w = [c] := by
  simp [char, matches_one]

/-- A class, and something after it. -/
theorem matches_one_seq : (seq (one p) b).Matches w ↔ ∃ c t, w = c :: t ∧ p c = true ∧ b.Matches t := by
  rw [matches_seq]
  constructor
  · rintro ⟨s, t, rfl, hs, ht⟩
    obtain ⟨c, rfl, hc⟩ := matches_one.1 hs
    exact ⟨c, t, rfl, hc, ht⟩
  · rintro ⟨c, t, rfl, hc, ht⟩
    exact ⟨[c], t, rfl, .one hc, ht⟩

theorem matches_text {cs : List Char} : (text cs).Matches w ↔ w = cs := by
  induction cs generalizing w with
  | nil => exact matches_nothing
  | cons c cs ih =>
    change (seq (one (· == c)) (text cs)).Matches w ↔ _
    rw [matches_one_seq]
    constructor
    · rintro ⟨d, t, rfl, hd, ht⟩
      rw [beq_iff_eq.1 hd, ih.1 ht]
    · rintro rfl
      exact ⟨c, cs, rfl, beq_iff_eq.2 rfl, ih.2 rfl⟩

/-- Many of a class are a run. -/
theorem matches_many_one : (many (one p)).Matches w ↔ ∀ c ∈ w, p c = true := by
  constructor
  · intro h
    generalize hm : many (one p) = m at h
    induction h with
    | nothing | one | seq | left | right => cases hm
    | done => simp
    | more h _ _ ih =>
      cases hm
      obtain ⟨c, rfl, hc⟩ := matches_one.1 h
      simpa [hc] using ih rfl
  · intro h
    induction w with
    | nil => exact .done
    | cons c w ih =>
      have ht := ih fun d hd => h d (List.mem_cons_of_mem c hd)
      exact .more (s := [c]) (.one (h c List.mem_cons_self)) ht

theorem matches_some_one : (some (one p)).Matches w ↔ w ≠ [] ∧ ∀ c ∈ w, p c = true := by
  rw [some, matches_one_seq]
  constructor
  · rintro ⟨c, t, rfl, hc, ht⟩
    exact ⟨List.cons_ne_nil c t, by simpa [hc] using matches_many_one.1 ht⟩
  · rintro ⟨hne, hall⟩
    cases w with
    | nil => exact absurd rfl hne
    | cons c t =>
      obtain ⟨hc, ht⟩ := List.forall_mem_cons.1 hall
      exact ⟨c, t, rfl, hc, matches_many_one.2 ht⟩

/-- Can nothing be a match? -/
def nullable : Pattern → Bool
  | nothing | many _ => true
  | one _ => false
  | seq a b => a.nullable && b.nullable
  | either a b => a.nullable || b.nullable

/-- Can a match begin with `c`? -/
def starts : Pattern → Char → Bool
  | nothing, _ => false
  | one p, c => p c
  | seq a b, c => a.starts c || a.nullable && b.starts c
  | either a b, c => a.starts c || b.starts c
  | many a, c => a.starts c

theorem Matches.nullable_of_nil (h : a.Matches w) (hw : w = []) : a.nullable = true := by
  induction h with
  | nothing | done | more => rfl
  | one => cases hw
  | seq _ _ iha ihb =>
    obtain ⟨hs, ht⟩ := List.append_eq_nil_iff.1 hw
    simp [nullable, iha hs, ihb ht]
  | left _ ih => simp [nullable, ih hw]
  | right _ ih => simp [nullable, ih hw]

theorem Matches.starts_of_cons {c : Char} {t : List Char} (h : a.Matches w) (hw : w = c :: t) :
    a.starts c = true := by
  induction h generalizing t with
  | nothing | done => cases hw
  | one hc =>
    obtain ⟨rfl, -⟩ := List.cons.inj hw
    exact hc
  | @seq a b s u ha _ iha ihb =>
    cases s with
    | nil => simp [starts, ha.nullable_of_nil rfl, ihb hw]
    | cons d s =>
      obtain ⟨rfl, -⟩ := List.cons.inj hw
      simp [starts, iha rfl]
  | left _ ih => simp [starts, ih hw]
  | right _ ih => simp [starts, ih hw]
  | @more a s u _ _ iha ihb =>
    cases s with
    | nil => exact ihb hw
    | cons d s =>
      obtain ⟨rfl, -⟩ := List.cons.inj hw
      exact iha rfl

/-- The longest match at the beginning of `input` takes `n` characters. -/
structure Longest (a : Pattern) (input : List Char) (n : Nat) : Prop where
  fits : n ≤ input.length
  matched : a.Matches (input.take n)
  greatest : ∀ w, w <+: input → a.Matches w → w.length ≤ n

variable {input : List Char} {n m : Nat}

theorem longest_one {c : Char} (h : p c = true) : Longest (one p) (c :: input) 1 where
  fits := by simp
  matched := .one h
  greatest w _ hw := by
    obtain ⟨d, rfl, -⟩ := matches_one.1 hw
    exact Nat.le_refl 1

theorem longest_many_one (p : Char → Bool) (input : List Char) :
    Longest (many (one p)) input (input.takeWhile p).length where
  fits := (List.takeWhile_prefix p).length_le
  matched := by
    rw [Text.take_length_takeWhile]
    exact matches_many_one.2 fun c hc => List.all_eq_true.1 List.all_takeWhile c hc
  greatest w hw hm := (Text.isPrefix_takeWhile hw (matches_many_one.1 hm)).length_le

/-- The longest match of two patterns in a row takes the longest match of each, if nothing is gained by
stopping the first one early. -/
theorem Longest.seq (ha : Longest a input n) (hb : Longest b (input.drop n) m)
    (early : ∀ w v, w ++ v <+: input → a.Matches w → w.length < n → b.Matches v → v = []) :
    Longest (a.seq b) input (n + m) where
  fits := by
    have h₁ := ha.fits
    have h₂ := hb.fits
    rw [List.length_drop] at h₂
    omega
  matched := by
    rw [List.take_add]
    exact .seq ha.matched hb.matched
  greatest u hu hm := by
    obtain ⟨w, v, rfl, hw, hv⟩ := matches_seq.1 hm
    have hwn := ha.greatest w ((List.prefix_append w v).trans hu) hw
    rw [List.length_append]
    by_cases hlt : w.length < n
    · rw [early w v hu hw hlt hv, List.length_nil]
      omega
    · have hn : w.length = n := by omega
      obtain ⟨r, rfl⟩ := hu
      have hvm := hb.greatest v ⟨r, by rw [← hn]; simp⟩ hv
      omega

/-- A character of a class, then the longest match of the rest. -/
theorem Longest.cons {c : Char} (hc : p c = true) (hb : Longest b input m) :
    Longest ((one p).seq b) (c :: input) (m + 1) := by
  rw [Nat.add_comm]
  refine (longest_one hc).seq hb fun w v _ hw hlt _ => ?_
  obtain ⟨d, rfl, -⟩ := matches_one.1 hw
  exact absurd hlt (Nat.lt_irrefl 1)

/-- Nothing at the beginning of `input` is a match. -/
def Fails (a : Pattern) (input : List Char) : Prop := ∀ w, w <+: input → ¬ a.Matches w

theorem fails_one_seq_of_stops (h : Text.Stops p input) : Fails ((one p).seq b) input := by
  intro w hw hm
  obtain ⟨c, t, rfl, hc, -⟩ := matches_one_seq.1 hm
  obtain ⟨r, rfl⟩ := hw
  rw [List.cons_append, Text.stops_cons, hc] at h
  cases h

theorem Fails.cons {c : Char} (h : Fails b input) : Fails ((one p).seq b) (c :: input) := by
  intro w hw hm
  obtain ⟨d, t, rfl, -, ht⟩ := matches_one_seq.1 hm
  exact h t (List.cons_prefix_cons.1 hw).2 ht

/-- Where no match begins, many of them take nothing. -/
theorem Fails.eq_nil_of_many (h : Fails a input) (hw : w <+: input) (hm : (many a).Matches w) : w = [] := by
  generalize hp : many a = m at hm
  cases hm with
  | nothing | one | seq | left | right => cases hp
  | done => rfl
  | more hs =>
    cases hp
    exact absurd hs (h _ ((List.prefix_append _ _).trans hw))

theorem longest_some_one (h : input.takeWhile p ≠ []) :
    Longest (some (one p)) input (input.takeWhile p).length where
  fits := (longest_many_one p input).fits
  matched := by
    have hm := matches_many_one.1 (longest_many_one p input).matched
    rw [Text.take_length_takeWhile] at hm ⊢
    exact matches_some_one.2 ⟨h, hm⟩
  greatest w hw hm := (longest_many_one p input).greatest w hw (matches_many_one.2 (matches_some_one.1 hm).2)

theorem fails_some_one (h : input.takeWhile p = []) : Fails (some (one p)) input := by
  intro w hw hm
  obtain ⟨hne, hall⟩ := matches_some_one.1 hm
  have hp := Text.isPrefix_takeWhile hw hall
  rw [h, List.prefix_nil] at hp
  exact hne hp

theorem Longest.optional (h : Longest a input n) : Longest a.optional input n where
  fits := h.fits
  matched := matches_optional.2 (.inr h.matched)
  greatest w hw hm := by
    rcases matches_optional.1 hm with rfl | hm
    · exact Nat.zero_le n
    · exact h.greatest w hw hm

theorem Fails.optional (h : Fails a input) : Longest a.optional input 0 where
  fits := Nat.zero_le _
  matched := matches_optional.2 (.inl rfl)
  greatest w hw hm := by
    rcases matches_optional.1 hm with rfl | hm
    · exact Nat.le_refl 0
    · exact absurd hm (h w hw)

/-- After a run that was stopped early stands another character of the run. -/
theorem of_stopped_early {w t : List Char} {c : Char} (hw : w ++ c :: t <+: input)
    (hlt : w.length < (input.takeWhile p).length) : p c = true := by
  have hc : w ++ [c] <+: input.takeWhile p := by
    have hi : w ++ [c] <+: input := List.IsPrefix.trans ⟨t, by simp⟩ hw
    exact List.prefix_of_prefix_length_le hi (List.takeWhile_prefix p) (by simp; omega)
  exact List.all_eq_true.1 (List.all_takeWhile (l := input)) c (hc.subset (by simp))

end Pattern
end DocLint
