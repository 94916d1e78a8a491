/-!
# Plain operations on texts

Every scanner of the library works on `List Char`.  This module holds the few operations that they
share: cutting at a separator, gluing back, recognising a beginning or an end, and the length in
UTF-8 bytes.
-/
namespace DocLint.Text

/-- Cuts at every `sep`.  The result is never empty: `n` separators give `n + 1` parts. -/
def splitOn (sep : Char) : List Char → List (List Char)
  | [] => [[]]
  | c :: cs =>
    if c = sep then [] :: splitOn sep cs
    else
      match splitOn sep cs with
      | [] => [[c]]
      | l :: ls => (c :: l) :: ls

/-- Glues parts together with `sep` between neighbours. -/
def joinWith (sep : List Char) : List (List Char) → List Char
  | [] => []
  | [l] => l
  | l :: ls => l ++ sep ++ joinWith sep ls

/-- What follows `start` at the beginning of a text. -/
def dropStart? : (start text : List Char) → Option (List Char)
  | [], t => some t
  | _ :: _, [] => none
  | s :: ss, c :: cs => if s = c then dropStart? ss cs else none

/-- What precedes `ending` at the end of a text. -/
def dropEnd? (ending text : List Char) : Option (List Char) :=
  (dropStart? ending.reverse text.reverse).map List.reverse

/-- The number of bytes of a text in UTF-8. -/
def byteLength : List Char → Nat
  | [] => 0
  | c :: cs => c.utf8Size + byteLength cs

/-- Does `part` occur somewhere in the text? -/
def contains (part : List Char) : List Char → Bool
  | [] => part.isEmpty
  | c :: cs => part.isPrefixOf (c :: cs) || contains part cs

@[simp] theorem byteLength_nil : byteLength [] = 0 := rfl

@[simp] theorem byteLength_cons (c : Char) (cs : List Char) :
    byteLength (c :: cs) = c.utf8Size + byteLength cs := rfl

@[simp] theorem byteLength_append (a b : List Char) :
    byteLength (a ++ b) = byteLength a + byteLength b := by
  induction a with
  | nil => simp
  | cons c cs ih => simp [ih, Nat.add_assoc]

theorem splitOn_ne_nil (sep : Char) (cs : List Char) : splitOn sep cs ≠ [] := by
  cases cs with
  | nil => simp [splitOn]
  | cons c cs =>
    simp only [splitOn]
    split
    · simp
    · split <;> simp

/-- Cutting loses nothing. -/
theorem joinWith_splitOn (sep : Char) (cs : List Char) : joinWith [sep] (splitOn sep cs) = cs := by
  induction cs with
  | nil => rfl
  | cons c cs ih =>
    rw [splitOn]
    split
    · next h =>
      subst h
      cases hs : splitOn c cs with
      | nil => exact absurd hs (splitOn_ne_nil c cs)
      | cons l ls => simp [joinWith, ← hs, ih]
    · cases hs : splitOn sep cs with
      | nil => exact absurd hs (splitOn_ne_nil sep cs)
      | cons l ls =>
        rw [hs] at ih
        cases ls with
        | nil => simpa [joinWith] using ih
        | cons m ms => simpa [joinWith] using ih

theorem splitOn_of_notMem {sep : Char} {a : List Char} (h : sep ∉ a) : splitOn sep a = [a] := by
  induction a with
  | nil => rfl
  | cons c a ih =>
    have hc : c ≠ sep := fun hc => h (by simp [hc])
    rw [splitOn, if_neg hc, ih fun ha => h (List.mem_cons_of_mem c ha)]

/-- A separator cuts whatever stands around it. -/
theorem splitOn_append_sep (sep : Char) (a b : List Char) :
    splitOn sep (a ++ sep :: b) = splitOn sep a ++ splitOn sep b := by
  induction a with
  | nil => simp [splitOn]
  | cons c a ih =>
    rw [List.cons_append, splitOn, splitOn, ih]
    by_cases hc : c = sep
    · rw [if_pos hc, if_pos hc, List.cons_append]
    · rw [if_neg hc, if_neg hc]
      cases hs : splitOn sep a with
      | nil => exact absurd hs (splitOn_ne_nil sep a)
      | cons l ls => rfl

theorem splitOn_append {sep : Char} {a : List Char} (h : sep ∉ a) (b : List Char) :
    splitOn sep (a ++ sep :: b) = a :: splitOn sep b := by
  rw [splitOn_append_sep, splitOn_of_notMem h, List.singleton_append]

theorem notMem_of_mem_splitOn {sep : Char} {cs l : List Char} (h : l ∈ splitOn sep cs) : sep ∉ l := by
  induction cs generalizing l with
  | nil => simp_all [splitOn]
  | cons c cs ih =>
    rw [splitOn] at h
    split at h
    · rcases List.mem_cons.1 h with rfl | h
      · exact List.not_mem_nil
      · exact ih h
    · next hc =>
      cases hs : splitOn sep cs with
      | nil => exact absurd hs (splitOn_ne_nil sep cs)
      | cons m ms =>
        rw [hs] at h ih
        rcases List.mem_cons.1 h with rfl | h
        · rw [List.mem_cons, not_or]
          exact ⟨fun heq => hc heq.symm, ih List.mem_cons_self⟩
        · exact ih (List.mem_cons_of_mem m h)

theorem joinWith_cons (sep l : List Char) (ls : List (List Char)) :
    joinWith sep (l :: ls) = l ++ ls.flatMap (sep ++ ·) := by
  induction ls generalizing l with
  | nil => simp [joinWith]
  | cons m ms ih => rw [joinWith, ih]; simp; simp

theorem joinWith_concat (sep : List Char) {ls : List (List Char)} (h : ls ≠ []) (l : List Char) :
    joinWith sep (ls ++ [l]) = joinWith sep ls ++ sep ++ l := by
  obtain ⟨m, ms, rfl⟩ := List.exists_cons_of_ne_nil h
  rw [List.cons_append, joinWith_cons, joinWith_cons, List.flatMap_append]
  simp

/-- Parts that were glued are cut again. -/
theorem splitOn_joinWith {sep : Char} {ls : List (List Char)} (hne : ls ≠ []) (h : ∀ l ∈ ls, sep ∉ l) :
    splitOn sep (joinWith [sep] ls) = ls := by
  fun_induction joinWith [sep] ls with
  | case1 => exact absurd rfl hne
  | case2 l => exact splitOn_of_notMem (h l List.mem_cons_self)
  | case3 l ls hls ih =>
    have hl : sep ∉ l := h l List.mem_cons_self
    rw [List.append_assoc, List.singleton_append, splitOn_append hl, ih hls fun m hm => h m (List.mem_cons_of_mem l hm)]

theorem eq_append_of_dropStart? {start text rest : List Char} (h : dropStart? start text = some rest) :
    text = start ++ rest := by
  induction start generalizing text with
  | nil => simpa [dropStart?] using h
  | cons s ss ih =>
    cases text with
    | nil => simp [dropStart?] at h
    | cons c cs =>
      simp only [dropStart?] at h
      split at h
      · next hc => rw [ih h, hc]; rfl
      · simp at h

theorem eq_append_of_dropEnd? {ending text rest : List Char} (h : dropEnd? ending text = some rest) :
    text = rest ++ ending := by
  obtain ⟨r, hr, rfl⟩ := Option.map_eq_some_iff.1 h
  have := congrArg List.reverse (eq_append_of_dropStart? hr)
  simpa using this

end DocLint.Text
