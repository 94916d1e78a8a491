import DocLint.Text

/-!
# Runs of characters

The scanners take runs: as many characters of a class as there are.  A run that is followed by a character
outside the class is found whole, and no part of the class before it is longer.
-/
namespace DocLint.Text

variable {p : Char → Bool} {a b cs : List Char} {c : Char}

/-- No character of the class `p` stands first. -/
def Stops (p : Char → Bool) (cs : List Char) : Prop := ∀ c ∈ cs.head?, p c = false

@[simp] theorem stops_nil : Stops p [] := by simp [Stops]

@[simp] theorem stops_cons : Stops p (c :: cs) ↔ p c = false := by simp [Stops]

theorem stops_dropWhile (p : Char → Bool) (cs : List Char) : Stops p (cs.dropWhile p) := by
  induction cs with
  | nil => simp
  | cons c cs ih =>
    by_cases h : p c = true
    · simpa [h] using ih
    · simp [h]

@[simp] theorem take_length_takeWhile (p : Char → Bool) (cs : List Char) :
    cs.take (cs.takeWhile p).length = cs.takeWhile p :=
  (List.prefix_iff_eq_take.1 (List.takeWhile_prefix p)).symm

@[simp] theorem drop_length_takeWhile (p : Char → Bool) (cs : List Char) :
    cs.drop (cs.takeWhile p).length = cs.dropWhile p := by
  have h := List.take_append_drop (cs.takeWhile p).length cs
  rw [take_length_takeWhile] at h
  exact List.append_cancel_left (h.trans (List.takeWhile_append_dropWhile).symm)

/-- A run before something else is found whole. -/
theorem takeWhile_append_of_stops (ha : ∀ c ∈ a, p c = true) (hb : Stops p b) :
    (a ++ b).takeWhile p = a := by
  rw [List.takeWhile_append_of_pos ha]
  cases b with
  | nil => simp
  | cons c b => simp [stops_cons.1 hb]

/-- No run at the beginning of a text is longer than the one that is found. -/
theorem isPrefix_takeWhile (h : a <+: cs) (ha : ∀ c ∈ a, p c = true) : a <+: cs.takeWhile p := by
  obtain ⟨b, rfl⟩ := h
  rw [List.takeWhile_append_of_pos ha]
  exact List.prefix_append a _

end DocLint.Text
