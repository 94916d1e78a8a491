import DocLint.Proofs.Comment

/-!
# Cutting a text that is put together

A text that is put together from words, symbols, blanks and doc comments is cut into them again, as long as no
part runs on into the next one.
-/
namespace DocLint

open DocLint.Text
open DocComment (opening closing)

namespace Slice

theorem ofText_cons (c : Char) (cs : List Char) :
    ofText (c :: cs) = ⟨(measure c cs).1, c :: cs.take (measure c cs).2⟩ :: ofText (cs.drop (measure c cs).2) := by
  rw [ofText]

/-- A character that begins nothing longer than itself. -/
def isSymbol (c : Char) : Bool :=
  !(c = '/' || isInlineBlank c || isQuote c || c.isDigit || isWordStart c)

theorem ofText_symbol {c : Char} (h : isSymbol c = true) (rest : List Char) :
    ofText (c :: rest) = ⟨.token (symbolKind c), [c]⟩ :: ofText rest := by
  simp only [isSymbol, Bool.not_eq_true', Bool.or_eq_false_iff, decide_eq_false_iff_not] at h
  obtain ⟨⟨⟨⟨slash, blank⟩, quote⟩, digit⟩, word⟩ := h
  have hm : measure c rest = (.token (symbolKind c), 0) := by
    simp [measure, slash, blank, quote, digit, word]
  rw [ofText_cons, hm]
  rfl

/-- The codes of letters. -/
theorem isAlpha_iff_toNat {c : Char} :
    c.isAlpha = true ↔ 65 ≤ c.toNat ∧ c.toNat ≤ 90 ∨ 97 ≤ c.toNat ∧ c.toNat ≤ 122 := by
  have hupper : c.isUpper = true ↔ 'A'.val ≤ c.val ∧ c.val ≤ 'Z'.val := decide_eq_true_iff
  have hlower : c.isLower = (decide ('a'.val ≤ c.val) && decide (c.val ≤ 'z'.val)) := rfl
  have halpha : c.isAlpha = (c.isUpper || c.isLower) := rfl
  rw [halpha, Bool.or_eq_true, hupper, hlower, Bool.and_eq_true, decide_eq_true_eq, decide_eq_true_eq]
  rfl

theorem not_isAlpha_of_isDigit {c : Char} (h : c.isDigit = true) : c.isAlpha = false := by
  rw [Bool.eq_false_iff]
  intro ha
  rw [isAlpha_iff_toNat] at ha
  have hnine : c.toNat ≤ 57 := (Char.isDigit_iff_toNat.1 h).2
  omega

theorem not_isWordStart_of_isDigit {c : Char} (h : c.isDigit = true) : isWordStart c = false := by
  simp only [isWordStart, not_isAlpha_of_isDigit h, Bool.false_or, Bool.or_eq_false_iff,
    decide_eq_false_iff_not]
  constructor <;> rintro rfl <;> exact absurd h (by decide)

theorem isWordChar_of_isWordStart {c : Char} (h : isWordStart c = true) : isWordChar c = true := by
  simp only [isWordStart, Bool.or_eq_true, decide_eq_true_eq] at h
  simp only [isWordChar, Char.isAlphanum, Bool.or_eq_true, decide_eq_true_eq]
  exact h.imp_left (.imp_left .inl)

/-- What begins a word begins nothing else. -/
theorem measure_of_isWordStart {c : Char} (h : isWordStart c = true) (rest : List Char) :
    measure c rest =
      (.token (wordKind (c :: rest.takeWhile isWordChar)), (rest.takeWhile isWordChar).length) := by
  have slash : c ≠ '/' := by rintro rfl; exact absurd h (by decide)
  have blank : isInlineBlank c = false := by
    rw [Bool.eq_false_iff]
    intro hb
    simp only [isInlineBlank, Bool.or_eq_true, decide_eq_true_eq] at hb
    rcases hb with ((rfl | rfl) | rfl) | rfl <;> exact absurd h (by decide)
  have quote : isQuote c = false := by
    rw [Bool.eq_false_iff]
    intro hq
    simp only [isQuote, Bool.or_eq_true, decide_eq_true_eq] at hq
    rcases hq with (rfl | rfl) | rfl <;> exact absurd h (by decide)
  have digit : c.isDigit = false := by
    rw [Bool.eq_false_iff]
    intro hd
    rw [not_isWordStart_of_isDigit hd] at h
    cases h
  simp [measure, slash, blank, quote, digit, h]

theorem ofText_word {c : Char} {w rest : List Char} (hc : isWordStart c = true)
    (hw : ∀ d ∈ w, isWordChar d = true) (hr : Stops isWordChar rest) :
    ofText (c :: w ++ rest) = ⟨.token (wordKind (c :: w)), c :: w⟩ :: ofText rest := by
  rw [List.cons_append, ofText_cons, measure_of_isWordStart hc, takeWhile_append_of_stops hw hr, List.take_left,
    List.drop_left]

theorem ofText_blank {c : Char} {w rest : List Char} (hc : isInlineBlank c = true)
    (hw : ∀ d ∈ w, isInlineBlank d = true) (hr : Stops isInlineBlank rest) :
    ofText (c :: w ++ rest) = ⟨.token .whitespace, c :: w⟩ :: ofText rest := by
  have slash : c ≠ '/' := by rintro rfl; exact absurd hc (by decide)
  have hm : measure c (w ++ rest) = (.token .whitespace, w.length) := by
    simp [measure, slash, hc, takeWhile_append_of_stops hw hr]
  rw [List.cons_append, ofText_cons, hm, List.take_left, List.drop_left]

/-- A space between two parts. -/
theorem ofText_space {rest : List Char} (hr : Stops isInlineBlank rest) :
    ofText (' ' :: rest) = ⟨.token .whitespace, [' ']⟩ :: ofText rest := by
  have hnone : ∀ d ∈ ([] : List Char), isInlineBlank d = true := by simp
  exact ofText_blank (show isInlineBlank ' ' = true by decide) hnone hr

/-- A doc comment up to its first closing. -/
theorem ofText_doc {inner rest : List Char} (hc : ¬ closing <:+: inner ++ ['*']) (hs : inner.head? ≠ some '/') :
    ofText (opening ++ (inner ++ closing) ++ rest) = ⟨.doc, opening ++ (inner ++ closing)⟩ :: ofText rest := by
  have hm : measure '/' ('*' :: '*' :: (inner ++ closing ++ rest)) = (.doc, inner.length + 2 + 2) := by
    rw [measure, if_pos rfl, measureSlash, closeLength_closed hc]
    intro ds hds
    cases inner with
    | nil => simp [closing] at hds
    | cons c cs => exact hs (by rw [(List.cons.inj hds).1]; rfl)
  have hlen : (inner ++ closing).length = inner.length + 2 := by simp [closing]
  have hsplit : opening ++ (inner ++ closing) ++ rest = '/' :: '*' :: '*' :: (inner ++ closing ++ rest) := by
    simp [opening]
  rw [hsplit, ofText_cons, hm, ← hlen, List.take_succ_cons, List.take_succ_cons, List.take_left,
    List.drop_succ_cons, List.drop_succ_cons, List.drop_left]
  rfl

/-- Blanks and line feeds. -/
def isGap (c : Char) : Bool := isInlineBlank c || c = '\n'

/-- The first part of a gap is a line feed or a run of blanks, and a shorter gap is left. -/
theorem exists_gap_part {c : Char} {g : List Char} (hg : ∀ d ∈ c :: g, isGap d = true) :
    ∃ s g', (s.cls = .token .whitespace ∨ s.cls = .token .newline) ∧ g'.length ≤ g.length ∧
      (∀ d ∈ g', isGap d = true) ∧
      ∀ rest, Stops isInlineBlank rest → ofText (c :: g ++ rest) = s :: ofText (g' ++ rest) := by
  have hg' : ∀ d ∈ g, isGap d = true := fun d hd => hg d (List.mem_cons_of_mem c hd)
  by_cases hc : c = '\n'
  · subst hc
    refine ⟨⟨.token .newline, ['\n']⟩, g, .inr rfl, Nat.le_refl _, hg', fun rest _ => ?_⟩
    exact ofText_symbol (by decide) (g ++ rest)
  · have hb : isInlineBlank c = true := by simpa [isGap, hc] using hg c (by simp)
    have hall : ∀ d ∈ g.takeWhile isInlineBlank, isInlineBlank d = true :=
      fun d hd => List.all_eq_true.1 List.all_takeWhile d hd
    have hsuffix : g.dropWhile isInlineBlank <:+ g := List.dropWhile_suffix isInlineBlank
    refine ⟨⟨.token .whitespace, c :: g.takeWhile isInlineBlank⟩, g.dropWhile isInlineBlank, .inl rfl,
      hsuffix.length_le, fun d hd => hg' d (hsuffix.subset hd), fun rest hr => ?_⟩
    have hstop : Stops isInlineBlank (g.dropWhile isInlineBlank ++ rest) := by
      have := stops_dropWhile isInlineBlank g
      cases hd : g.dropWhile isInlineBlank with
      | nil => simpa using hr
      | cons d ds => simpa [hd] using this
    have hcat : c :: g ++ rest = c :: g.takeWhile isInlineBlank ++ (g.dropWhile isInlineBlank ++ rest) := by
      rw [List.cons_append, List.cons_append, ← List.append_assoc, List.takeWhile_append_dropWhile]
    rw [hcat, ofText_blank hb hall hstop]

/-- A gap is cut for itself, whatever follows it, and into nothing but blanks and line feeds. -/
theorem ofText_gap {g : List Char} (hg : ∀ c ∈ g, isGap c = true) :
    (∀ rest, Stops isInlineBlank rest → ofText (g ++ rest) = ofText g ++ ofText rest) ∧
      ∀ s ∈ ofText g, s.cls = .token .whitespace ∨ s.cls = .token .newline := by
  -- The induction is on the length, because a run of blanks is cut at once.
  induction hn : g.length using Nat.strongRecOn generalizing g with
  | ind n ih =>
    subst hn
    cases g with
    | nil => exact ⟨fun rest _ => by simp [ofText], by simp [ofText]⟩
    | cons c g =>
      obtain ⟨s, g', hs, hle, hg', hcut⟩ := exists_gap_part hg
      obtain ⟨hrest, hkinds⟩ := ih g'.length (Nat.lt_succ_of_le hle) hg' rfl
      have halone : ofText (c :: g) = s :: ofText g' := by simpa using hcut [] stops_nil
      refine ⟨fun rest hr => ?_, fun t ht => ?_⟩
      · rw [hcut rest hr, hrest rest hr, halone, List.cons_append]
      · rw [halone] at ht
        rcases List.mem_cons.1 ht with rfl | ht
        · exact hs
        · exact hkinds t ht

/-! ## The tokens of a text that is put together -/

theorem layout_append (p : Position) (ss ts : List Slice) :
    layout p (ss ++ ts) = layout p ss ++ layout (p.advance (ss.flatMap Slice.text)) ts := by
  induction ss generalizing p with
  | nil => rfl
  | cons s ss ih =>
    rw [List.cons_append, layout, layout, ih, List.append_assoc, List.flatMap_cons, Position.advance_append]

/-- The kinds of the tokens of slices that are one token each. -/
theorem kind_of_mem_layout {P : Kind → Prop} {p : Position} {ss : List Slice} {t : Token}
    (h : ∀ s ∈ ss, ∃ k, s.cls = .token k ∧ P k) (ht : t ∈ layout p ss) : P t.kind := by
  induction ss generalizing p with
  | nil => cases ht
  | cons s ss ih =>
    obtain ⟨k, hk, hP⟩ := h s (by simp)
    rcases List.mem_append.1 ht with ht | ht
    · rw [pieces, hk] at ht
      rw [List.mem_singleton.1 ht]
      exact hP
    · exact ih (fun u hu => h u (List.mem_cons_of_mem s hu)) ht

end Slice
end DocLint
