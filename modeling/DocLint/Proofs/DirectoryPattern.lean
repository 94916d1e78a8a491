import DocLint.Glob
import DocLint.Proofs.Components

/-!
# Patterns for directories

A name between `**/` and `/**` is a pattern for everything in the directories of that name, at any depth.  Both ways to
match it, the pattern itself and the search for the name between two slashes, come to the same: the name is a segment of
the path, and not the last one.
-/
namespace DocLint

open DocLint.Text

variable {name text : List Char}

/-! ## Segments of a text -/

namespace Text

theorem contains_iff {part : List Char} : contains part text = true ↔ part <:+: text := by
  induction text with
  | nil => simp [contains, List.isEmpty_iff]
  | cons c cs ih => rw [contains, Bool.or_eq_true, ih, List.isPrefixOf_iff_prefix, List.infix_cons_iff]

/-- A place in a text where a segment starts: the very beginning, or right after a separator. -/
def SegmentStart (sep : Char) (front : List Char) : Prop := front = [] ∨ front.getLast? = some sep

theorem SegmentStart.splitOn_append {sep : Char} {front : List Char} (h : SegmentStart sep front) (back : List Char) :
    ∃ before, splitOn sep (front ++ back) = before ++ splitOn sep back := by
  rcases h with rfl | hlast
  · exact ⟨[], rfl⟩
  · obtain ⟨front, rfl⟩ := List.getLast?_eq_some_iff.1 hlast
    exact ⟨splitOn sep front, by rw [List.append_assoc, List.singleton_append, splitOn_append_sep]⟩

theorem exists_of_mem_dropLast (sep : Char) {segment : List Char} {segments : List (List Char)}
    (h : segment ∈ segments.dropLast) : ∃ front back, SegmentStart sep front ∧
      joinWith [sep] segments = front ++ (segment ++ sep :: back) := by
  induction segments with
  | nil => simp at h
  | cons s ss ih =>
    cases ss with
    | nil => simp at h
    | cons u us =>
      rw [List.dropLast_cons_cons, List.mem_cons] at h
      have hglued : joinWith [sep] (s :: u :: us) = s ++ sep :: joinWith [sep] (u :: us) := by simp [joinWith]
      rcases h with rfl | h
      · exact ⟨[], joinWith [sep] (u :: us), .inl rfl, hglued⟩
      · obtain ⟨front, back, hstart, heq⟩ := ih h
        refine ⟨s ++ sep :: front, back, .inr ?_, by rw [hglued, heq]; simp⟩
        rcases hstart with rfl | hlast
        · exact List.getLast?_concat
        · rw [List.getLast?_append_of_ne_nil _ (List.cons_ne_nil sep front), List.getLast?_cons, hlast]
          rfl

/-- A segment other than the last stands between its start and a separator. -/
theorem mem_dropLast_splitOn_iff {sep : Char} {segment : List Char} (h : sep ∉ segment) :
    segment ∈ (splitOn sep text).dropLast ↔
      ∃ front back, SegmentStart sep front ∧ text = front ++ (segment ++ sep :: back) := by
  constructor
  · intro hmem
    obtain ⟨front, back, hstart, hglued⟩ := exists_of_mem_dropLast sep hmem
    exact ⟨front, back, hstart, by rw [← hglued, joinWith_splitOn]⟩
  · rintro ⟨front, back, hstart, rfl⟩
    obtain ⟨before, hbefore⟩ := hstart.splitOn_append (segment ++ sep :: back)
    rw [hbefore, splitOn_append h, List.dropLast_append_of_ne_nil (List.cons_ne_nil _ _),
      List.dropLast_cons_of_ne_nil (splitOn_ne_nil sep back)]
    simp

end Text

namespace Glob

/-! ## The tokens of a pattern -/

/-- Everything in the directories of a name. -/
def everythingIn (name : List Char) : List Char := '*' :: '*' :: '/' :: (name ++ ['/', '*', '*'])

/-- Characters that stand for themselves. -/
def IsPlain (cs : List Char) : Prop := ∀ c ∈ cs, c ≠ '?' ∧ c ≠ '*' ∧ c ≠ '['

instance (cs : List Char) : Decidable (IsPlain cs) := List.decidableBAll (fun c => c ≠ '?' ∧ c ≠ '*' ∧ c ≠ '[') cs

theorem tokensFrom_char {c : Char} (h : c ≠ '?' ∧ c ≠ '*' ∧ c ≠ '[') (fuel : Nat) (prior : Option Char)
    (tokens : List Token) (cs : List Char) :
    tokensFrom (fuel + 1) prior tokens (c :: cs) = tokensFrom fuel (some c) (tokens ++ [.char c]) cs := by
  obtain ⟨hany, hsequence, hclass⟩ := h
  rw [tokensFrom, if_neg hany, if_neg hsequence, if_neg hclass]

theorem tokensFrom_plain (h : IsPlain name) (fuel : Nat) (prior : Option Char) (tokens : List Token) (cs : List Char) :
    tokensFrom (name.length + (fuel + 1)) prior tokens (name ++ '/' :: cs) =
      tokensFrom fuel (some '/') (tokens ++ (name ++ ['/']).map .char) cs := by
  induction name generalizing prior tokens with
  | nil =>
    rw [List.length_nil, Nat.zero_add, List.nil_append, tokensFrom_char (by decide)]
    rfl
  | cons c name ih =>
    obtain ⟨hc, hname⟩ := List.forall_mem_cons.1 h
    have hfuel : (c :: name).length + (fuel + 1) = name.length + (fuel + 1) + 1 := by
      rw [List.length_cons]
      omega
    rw [hfuel, List.cons_append, tokensFrom_char hc, ih hname]
    simp

theorem tokens?_everythingIn (h : IsPlain name) :
    tokens? (everythingIn name) = some (.components :: ((name ++ ['/']).map .char ++ [.components])) := by
  have hlength : (everythingIn name).length = name.length + (2 + 1) + 3 := by simp [everythingIn]
  have hlast : (Token.components :: (name ++ ['/']).map .char).getLast? = some (.char '/') := by
    rw [List.map_append, ← List.cons_append]
    exact List.getLast?_concat
  rw [tokens?, hlength, everythingIn]
  show tokensFrom (name.length + (2 + 1) + 2) (some '/') [.components] (name ++ ['/', '*', '*']) = _
  rw [show name.length + (2 + 1) + 2 = name.length + (4 + 1) by omega, tokensFrom_plain h]
  show some (pushComponents (Token.components :: (name ++ ['/']).map .char)) = _
  rw [pushComponents, hlast]
  simp

/-! ## Matching -/

theorem matchFrom_components (text : List Char) : matchFrom [.components] text = .success := by
  have hrest : ∀ tried, afterSequence true (matchFrom []) tried text = .success := by
    induction text with
    | nil => exact fun tried => rfl
    | cons c cs ih =>
      intro tried
      have hfails : (if tried = true then matchFrom [] (c :: cs) else .failure) = .failure := by
        cases tried <;> rfl
      rw [afterSequence, hfails]
      exact ih _
  rw [matchFrom]
  exact hrest true

theorem matchFrom_char (w : Char) (tokens : List Token) (c : Char) (cs : List Char) :
    matchFrom (.char w :: tokens) (c :: cs) = if c = w then matchFrom tokens cs else .failure := by
  rw [matchFrom]
  · simp [Token.holds]
  · simp
  · simp

/-- A word in a pattern is matched by itself.  The text is exhausted only if it is too short for the word. -/
theorem matchFrom_word (word text : List Char) :
    (matchFrom (word.map .char ++ [.components]) text = .success ↔ word <+: text) ∧
    (matchFrom (word.map .char ++ [.components]) text = .exhausted → text.length < word.length) := by
  induction word generalizing text with
  | nil => simp [matchFrom_components]
  | cons w word ih =>
    cases text with
    | nil => simp [matchFrom]
    | cons c cs =>
      obtain ⟨hsuccess, hexhausted⟩ := ih cs
      rw [List.map_cons, List.cons_append, matchFrom_char]
      by_cases hc : c = w
      · subst hc
        rw [if_pos rfl, hsuccess, List.cons_prefix_cons]
        refine ⟨by simp, fun h => ?_⟩
        simpa using hexhausted h
      · rw [if_neg hc]
        constructor
        · constructor
          · intro h
            cases h
          · intro h
            exact absurd (List.cons_prefix_cons.1 h).1.symm hc
        · intro h
          cases h

/-- A part of a text has a property, and a component may start there: right after a slash, or at the very beginning if
that is to be tried. -/
def LaterPart (tried : Bool) (cs : List Char) (property : List Char → Prop) : Prop :=
  ∃ front back, cs = front ++ back ∧ property back ∧ (front = [] ∧ tried = true ∨ front.getLast? = some '/')

theorem laterPart_cons {tried : Bool} {c : Char} {cs : List Char} {property : List Char → Prop} :
    LaterPart tried (c :: cs) property ↔
      (tried = true ∧ property (c :: cs)) ∨ LaterPart (decide (c = '/')) cs property := by
  constructor
  · rintro ⟨front, back, hsplit, hback, hstart⟩
    cases front with
    | nil =>
      obtain ⟨-, htried⟩ := hstart.resolve_right (by simp)
      exact .inl ⟨htried, hsplit ▸ hback⟩
    | cons d front =>
      obtain ⟨rfl, rfl⟩ := List.cons.inj hsplit
      have hlast := hstart.resolve_left (by simp)
      refine .inr ⟨front, back, rfl, hback, ?_⟩
      cases front with
      | nil => exact .inl ⟨rfl, by simpa using hlast⟩
      | cons e front => exact .inr (by simpa [List.getLast?_cons_cons] using hlast)
  · rintro (⟨htried, hback⟩ | ⟨front, back, rfl, hback, hstart⟩)
    · exact ⟨[], c :: cs, rfl, hback, .inl ⟨rfl, htried⟩⟩
    · refine ⟨c :: front, back, rfl, hback, .inr ?_⟩
      rcases hstart with ⟨rfl, hc⟩ | hlast
      · simpa using hc
      · rw [List.getLast?_cons, hlast]
        rfl

/-- After any number of whole components, the rest of a pattern is tried where a segment starts.  That the text is
exhausted at one place has to mean that no later place can succeed. -/
theorem afterSequence_eq_success_iff {rest : List Char → Verdict} (hnil : rest [] ≠ .success)
    (hexhausted : ∀ front back, rest (front ++ back) = .exhausted → rest back ≠ .success) (tried : Bool)
    (cs : List Char) :
    afterSequence true rest tried cs = .success ↔ LaterPart tried cs fun back => rest back = .success := by
  induction cs generalizing tried with
  | nil =>
    rw [afterSequence]
    constructor
    · intro h
      exact absurd h hnil
    · rintro ⟨front, back, hsplit, hback, -⟩
      obtain ⟨-, rfl⟩ := List.append_eq_nil_iff.1 hsplit.symm
      exact absurd hback hnil
  | cons c cs ih =>
    rw [laterPart_cons, ← ih, afterSequence]
    simp only [Bool.not_true, Bool.false_or]
    cases tried with
    | false => simp
    | true =>
      cases hverdict : rest (c :: cs) with
      | success => simp
      | failure => simp
      | exhausted =>
        -- The search ends here without success, so the later places must not have any.
        simp only [if_true, reduceCtorEq, and_false, false_or, false_iff]
        rw [ih]
        rintro ⟨front, back, rfl, hback, -⟩
        exact hexhausted (c :: front) back hverdict hback

theorem isMatch_everythingIn (hslash : '/' ∉ name) :
    isMatch (.components :: ((name ++ ['/']).map .char ++ [.components])) text = true ↔
      name ∈ (splitOn '/' text).dropLast := by
  have hword (back : List Char) := (matchFrom_word (name ++ ['/']) back).1
  have hnil : matchFrom ((name ++ ['/']).map .char ++ [.components]) [] ≠ .success := by
    intro h
    simpa using ((hword []).1 h).length_le
  have hexhausted : ∀ front back, matchFrom ((name ++ ['/']).map .char ++ [.components]) (front ++ back) = .exhausted →
      matchFrom ((name ++ ['/']).map .char ++ [.components]) back ≠ .success := by
    intro front back hexhausted hback
    have hshort := (matchFrom_word (name ++ ['/']) (front ++ back)).2 hexhausted
    have hlong := ((hword back).1 hback).length_le
    rw [List.length_append] at hshort
    omega
  rw [isMatch, decide_eq_true_iff, matchFrom, afterSequence_eq_success_iff hnil hexhausted,
    mem_dropLast_splitOn_iff hslash]
  constructor
  · rintro ⟨front, back, rfl, hback, hstart⟩
    obtain ⟨rest, hrest⟩ := (hword back).1 hback
    refine ⟨front, rest, hstart.imp_left And.left, ?_⟩
    rw [← hrest]
    simp
  · rintro ⟨front, rest, hstart, rfl⟩
    refine ⟨front, _, rfl, (hword _).2 ⟨rest, by simp⟩, hstart.imp_left fun h => ⟨h, rfl⟩⟩

theorem withoutComponents_plain (h : IsPlain name) (cs : List Char) :
    withoutComponents (name ++ '/' :: cs) = name ++ withoutComponents ('/' :: cs) := by
  induction name with
  | nil => rfl
  | cons c name ih =>
    obtain ⟨⟨-, hc, -⟩, hname⟩ := List.forall_mem_cons.1 h
    rw [List.cons_append, List.cons_append, ← ih hname, withoutComponents.eq_2]
    intro ds hds
    exact absurd hds hc

/-- A path is excluded if and only if the name is one of its segments, but not the last. -/
theorem excludes_everythingIn_iff (hslash : '/' ∉ name) (hplain : IsPlain name) :
    excludes (everythingIn name) text = true ↔ name ∈ (splitOn '/' text).dropLast := by
  have hwithout : withoutComponents (everythingIn name) = '/' :: (name ++ ['/']) := by
    show '/' :: withoutComponents (name ++ '/' :: ['*', '*']) = _
    rw [withoutComponents_plain hplain]
    rfl
  have hfound : contains ('/' :: (name ++ ['/'])) text = true → name ∈ (splitOn '/' text).dropLast := by
    intro h
    obtain ⟨front, back, hsplit⟩ := contains_iff.1 h
    refine (mem_dropLast_splitOn_iff hslash).2 ⟨front ++ ['/'], back, .inr List.getLast?_concat, ?_⟩
    rw [← hsplit]
    simp
  rw [excludes, tokens?_everythingIn hplain, hwithout, Option.any_some, Bool.or_eq_true, isMatch_everythingIn hslash]
  constructor
  · rintro (h | h)
    · exact h
    · simp only [Bool.and_eq_true] at h
      exact hfound h.2
  · exact .inl

end Glob
end DocLint
