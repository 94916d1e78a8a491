import Mathlib.Data.List.Induction
import DocLint.Proofs.Cut
import DocLint.Proofs.Landmark
import DocLint.Proofs.Lexeme

/-!
# What follows a lexeme

A lexeme that ends before a slash is found again if the slash, and all that follows it, is replaced by another slash or
by a space: each scanner stops before the slash by what it has seen, or because a slash is none of its characters, and
then neither is a space.  So the slices before a comment do not depend on the comment.  Blanks are cut into tokens that
leave no landmark, however they are grouped.
-/
namespace DocLint

open DocLint.Text

namespace Text

variable {p : Char → Bool} {a r u v : List Char} {d e : Char}

theorem takeWhile_append_stops (h : Stops p r) (a : List Char) : (a ++ r).takeWhile p = a.takeWhile p := by
  induction a with
  | nil =>
    cases r with
    | nil => rfl
    | cons c r => simp [stops_cons.1 h]
  | cons c a ih =>
    by_cases hc : p c = true
    · simp [hc, ih]
    · simp [hc]

/-- A run that ends before `d` ends there too if `e` is put in its place, unless `e` goes on with it. -/
theorem takeWhile_congr (h : ((a ++ d :: u).takeWhile p).length ≤ a.length) (he : p d = true ∨ p e = false) :
    (a ++ e :: v).takeWhile p = (a ++ d :: u).takeWhile p := by
  induction a with
  | nil =>
    have hd : ¬ p d = true := by
      intro hd
      simp [hd] at h
    have he := he.resolve_left hd
    simp [hd, he]
  | cons c a ih =>
    by_cases hc : p c = true
    · simp only [List.cons_append, List.takeWhile_cons, hc, if_true, List.length_cons, Nat.add_le_add_iff_right] at h ⊢
      rw [ih h]
    · simp [hc]

theorem Stops.mono {q : Char → Bool} (h : Stops p r) (hpq : ∀ c, q c = true → p c = true) : Stops q r := by
  intro c hc
  cases hq : q c with
  | false => rfl
  | true => rw [← h c hc, hpq c hq]

end Text

namespace Slice

/-! ## Numbers -/

/-- The characters that a number can hold. -/
def isNumberChar (c : Char) : Bool := c.isAlphanum || c = '_' || c = '.' || c = '+' || c = '-'

theorem isNumberChar_of_isDigit {c : Char} (h : c.isDigit = true) : isNumberChar c = true := by
  simp [isNumberChar, Char.isAlphanum, h]

theorem isNumberChar_of_isHexChar {c : Char} (h : isHexChar c = true) : isNumberChar c = true := by
  have letter : ∀ {lo hi : Char}, (65 ≤ lo.toNat ∧ hi.toNat ≤ 90 ∨ 97 ≤ lo.toNat ∧ hi.toNat ≤ 122) →
      lo ≤ c → c ≤ hi → c.isAlpha = true := by
    intro lo hi hrange hlo hhi
    have hlo : lo.toNat ≤ c.toNat := hlo
    have hhi : c.toNat ≤ hi.toNat := hhi
    rw [isAlpha_iff_toNat]
    omega
  simp only [isHexChar, Bool.or_eq_true, Bool.and_eq_true, decide_eq_true_eq] at h
  rcases h with ((h | ⟨hlo, hhi⟩) | ⟨hlo, hhi⟩) | h
  · exact isNumberChar_of_isDigit h
  · simp [isNumberChar, Char.isAlphanum, letter (by decide) hlo hhi]
  · simp [isNumberChar, Char.isAlphanum, letter (by decide) hlo hhi]
  · simp [isNumberChar, h]

section Number

variable {r : List Char} (hr : Stops isNumberChar r)

include hr

theorem digitCount_append (w : List Char) : digitCount (w ++ r) = digitCount w := by
  rw [digitCount, digitCount, takeWhile_append_stops (hr.mono fun _ => isNumberChar_of_isDigit)]

theorem fractionLength_append (w : List Char) : fractionLength (w ++ r) = fractionLength w := by
  cases w with
  | nil =>
    cases r with
    | nil => rfl
    | cons c r =>
      have hc : c ≠ '.' := by
        rintro rfl
        exact absurd (stops_cons.1 hr) (by decide)
      rw [List.nil_append, fractionLength.eq_2]
      · rfl
      · intro cs h
        exact hc (List.cons.inj h).1
  | cons c w =>
    by_cases hc : c = '.'
    · subst hc
      rw [List.cons_append, fractionLength, fractionLength, digitCount_append hr]
    · rw [List.cons_append, fractionLength.eq_2, fractionLength.eq_2]
      · intro cs h
        exact hc (List.cons.inj h).1
      · intro cs h
        exact hc (List.cons.inj h).1

theorem exponentDigits_append (n : Nat) (w : List Char) : exponentDigits n (w ++ r) = exponentDigits n w := by
  rw [exponentDigits, exponentDigits, digitCount_append hr]

theorem exponentLength_append (w : List Char) : exponentLength (w ++ r) = exponentLength w := by
  have head : ∀ {c : Char} {cs : List Char}, r = c :: cs → c ≠ 'e' ∧ c ≠ 'E' ∧ c ≠ '+' ∧ c ≠ '-' := by
    intro c cs h
    rw [h, stops_cons] at hr
    refine ⟨?_, ?_, ?_, ?_⟩ <;> rintro rfl <;> exact absurd hr (by decide)
  cases w with
  | nil =>
    cases hcs : r with
    | nil => rfl
    | cons c cs => simp [exponentLength, head hcs]
  | cons c w =>
    cases w with
    | nil =>
      cases hcs : r with
      | nil => rfl
      | cons d cs =>
        have hnone : exponentDigits 1 (d :: cs) = 0 := by
          rw [← hcs]
          exact exponentDigits_append hr 1 []
        simp [exponentLength, head hcs, hnone]
    | cons s w =>
      have h2 := exponentDigits_append hr 2 w
      have h1 := exponentDigits_append hr 1 (s :: w)
      rw [List.cons_append] at h1
      simp only [List.cons_append, exponentLength, h1, h2]

theorem decimalLength_append (w : List Char) : decimalLength (w ++ r) = decimalLength w := by
  have hwhole : (w ++ r).takeWhile (fun c => c.isDigit || c = '_') = w.takeWhile fun c => c.isDigit || c = '_' := by
    refine takeWhile_append_stops (hr.mono fun c hc => ?_) w
    rcases Bool.or_eq_true_iff.1 hc with hc | hc
    · exact isNumberChar_of_isDigit hc
    · simp [isNumberChar, of_decide_eq_true hc]
  have hfraction : ∀ v, fractionLength v ≤ v.length := fun v => (Lexeme.longest_fraction v).fits
  have hlen := (List.takeWhile_prefix (fun c : Char => c.isDigit || c = '_') (l := w)).length_le
  have hrest := hfraction (w.drop (w.takeWhile fun c => c.isDigit || c = '_').length)
  rw [List.length_drop] at hrest
  simp only [decimalLength, hwhole]
  rw [List.drop_append_of_le_length hlen, fractionLength_append hr, List.drop_append_of_le_length (by omega),
    exponentLength_append hr]

theorem hexLength_append (w : List Char) : hexLength (w ++ r) = hexLength w := by
  have hex : ∀ v, (v ++ r).takeWhile isHexChar = v.takeWhile isHexChar :=
    takeWhile_append_stops (hr.mono fun _ => isNumberChar_of_isHexChar)
  cases w with
  | nil =>
    cases hcs : r with
    | nil => rfl
    | cons c cs =>
      rw [hcs, stops_cons] at hr
      have hx : c ≠ 'x' ∧ c ≠ 'X' := by
        constructor <;> rintro rfl <;> exact absurd hr (by decide)
      simp [hexLength, hx]
  | cons c w => simp only [List.cons_append, hexLength, hex]

/-- A number ends where a character follows that no number holds. -/
theorem numberLength_append (c : Char) (w : List Char) : numberLength c (w ++ r) = numberLength c w := by
  rw [numberLength, numberLength, hexLength_append hr, decimalLength_append hr]

end Number

/-! ## Comments and literals -/

section Congruence

variable {a u v : List Char}

theorem closeLength_cons {c : Char} {cs : List Char} (h : ¬ (c = '*' ∧ ∃ ds, cs = '/' :: ds)) :
    closeLength (c :: cs) = closeLength cs + 1 :=
  closeLength.eq_2 c cs fun ds hc hds => h ⟨hc, ds, hds⟩

theorem closeLength_pos {cs : List Char} (h : cs ≠ []) : 0 < closeLength cs := by
  fun_cases closeLength cs with
  | case1 => decide
  | case2 => exact Nat.succ_pos _
  | case3 => exact absurd rfl h

theorem one_lt_closeLength {c : Char} {cs : List Char} (h : cs ≠ []) : 1 < closeLength (c :: cs) := by
  by_cases hc : c = '*' ∧ ∃ ds, cs = '/' :: ds
  · obtain ⟨rfl, ds, rfl⟩ := hc
    exact Nat.one_lt_two
  · rw [closeLength_cons hc]
    exact Nat.succ_lt_succ (closeLength_pos h)

/-- A comment that closes before the end of `a` closes there, whatever follows. -/
theorem closeLength_congr (hu : u ≠ []) (h : closeLength (a ++ u) ≤ a.length) (v : List Char) :
    closeLength (a ++ v) = closeLength (a ++ u) := by
  induction a using List.twoStepInduction with
  | nil => exact absurd h (Nat.not_le.2 (closeLength_pos hu))
  | singleton c => exact absurd h (Nat.not_le.2 (one_lt_closeLength hu))
  | cons_cons c d a _ ih =>
    by_cases hcd : c = '*' ∧ d = '/'
    · obtain ⟨rfl, rfl⟩ := hcd
      rfl
    · have step : ∀ w, closeLength (c :: d :: a ++ w) = closeLength (d :: a ++ w) + 1 := by
        intro w
        refine closeLength_cons ?_
        rintro ⟨hc, ds, hd⟩
        exact hcd ⟨hc, (List.cons.inj hd).1⟩
      rw [step, List.length_cons, Nat.add_le_add_iff_right] at h
      rw [step, step, ih d h]

/-- Items stop at a quote, and at a line feed that may not stand in the literal. -/
theorem literalItems_stop {q c : Char} (hc : Lexeme.isPlain q c = false) (hb : c ≠ '\\') (w : List Char) :
    literalItems q (c :: w) = (0, decide (c = q)) := by
  rw [literalItems.eq_3 _ _ _ fun _ _ h => absurd h hb]
  by_cases hq : c = q
  · simp [hq]
  · have hn : (c = '\\' || (c = '\n' && q != '\x60')) = true := by
      simpa [Lexeme.isPlain, hq, hb] using hc
    rw [if_neg hq, if_pos hn]
    simp [hq]

/-- The characters that a literal in quotes `q` takes of what follows its opening quote. -/
def literalLength (q : Char) (cs : List Char) : Nat := (literalItems q cs).1 + (literalItems q cs).2.toNat

theorem measureLiteral_eq (q : Char) (cs : List Char) :
    measureLiteral q cs = (.token (if (literalItems q cs).2 then .literal else .other), literalLength q cs) := by
  unfold measureLiteral literalLength
  split
  · next n h => simp [h]
  · next n h => simp [h]

/-- A literal that ends before a plain character, complete or not, ends there, whatever follows. -/
theorem literalItems_congr {q d : Char} (hd : Lexeme.isPlain q d = true) (hdn : d ≠ '\n')
    (h : literalLength q (a ++ d :: u) ≤ a.length) (v : List Char) :
    literalItems q (a ++ v) = literalItems q (a ++ d :: u) := by
  have hplain : ∀ {c : Char} {w : List Char}, Lexeme.isPlain q c = true →
      literalLength q (c :: w) = literalLength q w + 1 := by
    intro c w hc
    simp only [literalLength, Lexeme.literalItems_plain hc]
    omega
  have hescape : ∀ {c : Char} {w : List Char}, c ≠ '\n' →
      literalLength q ('\\' :: c :: w) = literalLength q w + 2 := by
    intro c w hc
    simp only [literalLength, Lexeme.literalItems_escape hc]
    omega
  induction a using List.twoStepInduction with
  | nil =>
    rw [List.nil_append, hplain hd] at h
    exact absurd h (Nat.not_succ_le_zero _)
  | singleton c =>
    cases hc : Lexeme.isPlain q c with
    | true =>
      rw [List.singleton_append, hplain hc, hplain hd, List.length_singleton] at h
      omega
    | false =>
      by_cases hb : c = '\\'
      · subst hb
        rw [List.singleton_append, hescape hdn, List.length_singleton] at h
        omega
      · rw [List.singleton_append, List.singleton_append, literalItems_stop hc hb, literalItems_stop hc hb]
  | cons_cons c x a ih ihx =>
    cases hc : Lexeme.isPlain q c with
    | true =>
      rw [List.cons_append, hplain hc, List.length_cons, Nat.add_le_add_iff_right] at h
      have hitems := ihx x h
      rw [List.cons_append, List.cons_append] at hitems
      simp only [List.cons_append, Lexeme.literalItems_plain hc, hitems]
    | false =>
      by_cases hb : c = '\\'
      · subst hb
        by_cases hx : x = '\n'
        · subst hx
          rfl
        · rw [List.cons_append, List.cons_append, hescape hx, List.length_cons, List.length_cons,
            Nat.add_le_add_iff_right] at h
          simp only [List.cons_append, Lexeme.literalItems_escape hx, ih h]
      · simp only [List.cons_append, literalItems_stop hc hb]

end Congruence

/-! ## Lexemes before a slash -/

/-- The first character decides how a lexeme is measured. -/
theorem measure_cases (c : Char) :
    (c = '/' ∧ ∀ rest, measure c rest = measureSlash rest) ∨
    (isInlineBlank c = true ∧
      ∀ rest, measure c rest = (.token .whitespace, (rest.takeWhile isInlineBlank).length)) ∨
    (isQuote c = true ∧ ∀ rest, measure c rest = measureLiteral c rest) ∨
    (c.isDigit = true ∧ ∀ rest, measure c rest = (.token .literal, numberLength c rest)) ∨
    (isWordStart c = true ∧ ∀ rest, measure c rest =
      (.token (wordKind (c :: rest.takeWhile isWordChar)), (rest.takeWhile isWordChar).length)) ∨
    ∀ rest, measure c rest = (.token (symbolKind c), 0) := by
  by_cases slash : c = '/'
  · exact .inl ⟨slash, fun rest => by simp [measure, slash]⟩
  · by_cases blank : isInlineBlank c = true
    · exact .inr (.inl ⟨blank, fun rest => by simp [measure, slash, blank]⟩)
    · by_cases quote : isQuote c = true
      · exact .inr (.inr (.inl ⟨quote, fun rest => by simp [measure, slash, blank, quote]⟩))
      · by_cases digit : c.isDigit = true
        · exact .inr (.inr (.inr (.inl ⟨digit, fun rest => by simp [measure, slash, blank, quote, digit]⟩)))
        · by_cases word : isWordStart c = true
          · exact .inr (.inr (.inr (.inr (.inl ⟨word, measure_of_isWordStart word⟩))))
          · refine .inr (.inr (.inr (.inr (.inr fun rest => ?_))))
            simp [measure, slash, blank, quote, digit, word]

section Slash

variable {cs : List Char}

theorem measureSlash_doc (h : cs.head? ≠ some '/') :
    measureSlash ('*' :: '*' :: cs) = (.doc, closeLength cs + 2) := by
  refine measureSlash.eq_3 cs fun ds hds => h ?_
  rw [hds]
  rfl

theorem measureSlash_plain (h : cs.head? ≠ some '*') : measureSlash ('*' :: cs) = (.dropped, closeLength cs + 1) := by
  refine measureSlash.eq_4 cs (fun ds hds => h ?_) fun ds hds => h ?_
  · rw [hds]
    rfl
  · rw [hds]
    rfl

theorem measureSlash_alone (hs : cs.head? ≠ some '/') (hc : cs.head? ≠ some '*') :
    measureSlash cs = (.token .other, 0) := by
  cases cs with
  | nil => rfl
  | cons c cs =>
    have hs : c ≠ '/' := by simpa using hs
    have hc : c ≠ '*' := by simpa using hc
    simp [measureSlash, hs, hc]

end Slash

/-- What may follow a lexeme in two texts: nothing in both, or a slash in the one and a slash or a space in the
other. -/
inductive Parted : List Char → List Char → Prop
  | ended : Parted [] []
  | slash {e : Char} {u v : List Char} (he : e = '/' ∨ e = ' ') : Parted ('/' :: u) (e :: v)

/-- What begins with a slash and ends before another one ends there. -/
theorem measureSlash_congr {a u : List Char} (h : (measureSlash (a ++ '/' :: u)).2 ≤ a.length) (e : Char)
    (v : List Char) : measureSlash (a ++ e :: v) = measureSlash (a ++ '/' :: u) := by
  have hu : '/' :: u ≠ [] := List.cons_ne_nil _ _
  cases a with
  | nil => exact absurd h (Nat.not_succ_le_zero _)
  | cons x a =>
    by_cases hx : x = '/'
    · subst hx
      have hrun : ((a ++ '/' :: u).takeWhile (· != '\n')).length ≤ a.length := Nat.le_of_succ_le_succ h
      have heq := takeWhile_congr (e := e) (v := v) hrun (.inl rfl)
      simp only [List.cons_append, measureSlash, heq]
    · by_cases hx' : x = '*'
      · subst hx'
        cases a with
        | nil => exact absurd h (Nat.not_le.2 (Nat.succ_lt_succ (closeLength_pos hu)))
        | cons y a =>
          by_cases hy : y = '*'
          · subst hy
            cases a with
            | nil => exact absurd h (Nat.not_succ_le_self 2)
            | cons z a =>
              by_cases hz : z = '/'
              · subst hz
                rfl
              · have hdoc : ∀ w, measureSlash ('*' :: '*' :: z :: a ++ w) = (.doc, closeLength (z :: a ++ w) + 2) :=
                  fun w => measureSlash_doc (by simpa using hz)
                rw [hdoc] at h
                rw [hdoc, hdoc, closeLength_congr hu (Nat.le_of_add_le_add_right h)]
          · have hplain : ∀ w, measureSlash ('*' :: y :: a ++ w) = (.dropped, closeLength (y :: a ++ w) + 1) :=
              fun w => measureSlash_plain (by simpa using hy)
            rw [hplain] at h
            rw [hplain, hplain, closeLength_congr hu (Nat.le_of_add_le_add_right h)]
      · have halone : ∀ w, measureSlash (x :: a ++ w) = (.token .other, 0) :=
          fun w => measureSlash_alone (by simpa using hx) (by simpa using hx')
        rw [halone, halone]

theorem not_isNumberChar {e : Char} (he : e = '/' ∨ e = ' ') : isNumberChar e = false := by
  cases he with
  | inl he => rw [he]; decide
  | inr he => rw [he]; decide

theorem not_isWordChar {e : Char} (he : e = '/' ∨ e = ' ') : isWordChar e = false := by
  cases he with
  | inl he => rw [he]; decide
  | inr he => rw [he]; decide

theorem isPlain_slash {q : Char} (hq : isQuote q = true) : Lexeme.isPlain q '/' = true := by
  simp only [isQuote, Bool.or_eq_true, decide_eq_true_eq] at hq
  rcases hq with (rfl | rfl) | rfl <;> decide

/-- A lexeme that ends before a slash is found again before another slash or a space; only blanks would run on. -/
theorem measure_congr {c : Char} {a u u' : List Char} (hu : Parted u u') (h : (measure c (a ++ u)).2 ≤ a.length)
    (hb : isInlineBlank c = true → Stops isInlineBlank u') : measure c (a ++ u') = measure c (a ++ u) := by
  cases hu with
  | ended => rfl
  | @slash e u v he =>
    rcases measure_cases c with ⟨-, hm⟩ | ⟨hc, hm⟩ | ⟨hc, hm⟩ | ⟨-, hm⟩ | ⟨-, hm⟩ | hm
    · rw [hm] at h
      rw [hm, hm, measureSlash_congr h]
    · rw [hm] at h
      rw [hm, hm, takeWhile_congr h (.inr (stops_cons.1 (hb hc)))]
    · rw [hm, measureLiteral_eq] at h
      have hitems := literalItems_congr (isPlain_slash hc) (by decide) h (e :: v)
      simp only [hm, measureLiteral_eq, literalLength, hitems]
    · have hnumber : ∀ {d : Char} {w : List Char}, d = '/' ∨ d = ' ' →
          numberLength c (a ++ d :: w) = numberLength c a := by
        intro d w hd
        exact numberLength_append (stops_cons.2 (not_isNumberChar hd)) c a
      rw [hm, hm, hnumber he, hnumber (.inl rfl)]
    · rw [hm] at h
      rw [hm, hm, takeWhile_congr h (.inr (not_isWordChar he))]
    · rw [hm, hm]

/-! ## Slices before a slash -/

theorem exists_of_ofText_eq_cons {ds : List Char} {s : Slice} {ss : List Slice} (h : ofText ds = s :: ss) :
    ∃ c cs, ds = c :: cs ∧ s = ⟨(measure c cs).1, c :: cs.take (measure c cs).2⟩ ∧
      ofText (cs.drop (measure c cs).2) = ss := by
  cases ds with
  | nil => simp [ofText] at h
  | cons c cs =>
    rw [ofText_cons] at h
    obtain ⟨hs, hss⟩ := List.cons.inj h
    exact ⟨c, cs, rfl, hs.symm, hss⟩

/-- The text behind some slices is cut as if nothing stood before it. -/
theorem ofText_behind {ds : List Char} {ss ts : List Slice} (h : ofText ds = ss ++ ts) :
    ofText (ts.flatMap Slice.text) = ts := by
  induction ss generalizing ds with
  | nil =>
    rw [List.nil_append] at h
    rw [← h, flatMap_text_ofText]
  | cons s ss ih =>
    obtain ⟨c, cs, -, -, hrest⟩ := exists_of_ofText_eq_cons h
    exact ih hrest

/-- Slices before a slash stay the same, whatever follows the slash. -/
theorem ofText_congr {ss : List Slice} {u : List Char}
    (h : ofText (ss.flatMap Slice.text ++ '/' :: u) = ss ++ ofText ('/' :: u)) (v : List Char) :
    ofText (ss.flatMap Slice.text ++ '/' :: v) = ss ++ ofText ('/' :: v) := by
  induction ss with
  | nil => rfl
  | cons s ss ih =>
    obtain ⟨c, cs, hds, hs, hrest⟩ := exists_of_ofText_eq_cons h
    generalize hw : cs.take (measure c cs).2 = w at hs
    rw [hs, List.flatMap_cons, List.append_assoc, List.cons_append] at hds
    have hcs : cs = w ++ (ss.flatMap Slice.text ++ '/' :: u) := (List.cons.inj hds).2.symm
    have hlength : (measure c cs).2 = w.length := by
      have hlen := congrArg List.length hw
      have htotal := congrArg List.length hcs
      simp only [List.length_take, List.length_append, List.length_cons] at hlen htotal
      omega
    rw [hlength, hcs, List.drop_left] at hrest
    have hm : measure c (w ++ ss.flatMap Slice.text ++ '/' :: v) = measure c cs := by
      rw [hcs, ← List.append_assoc]
      refine measure_congr (.slash (.inl rfl)) ?_ fun _ => stops_cons.2 (by decide)
      rw [List.append_assoc, ← hcs, hlength, List.length_append]
      exact Nat.le_add_right _ _
    rw [List.append_assoc] at hm
    rw [hs, List.flatMap_cons, List.append_assoc, List.cons_append, ofText_cons, hm, hlength, List.take_left,
      List.drop_left, ih hrest]
    rfl

end Slice

/-! ## Places and blanks -/

/-- Places that differ at most in the byte offset. -/
def Position.Same (p q : Position) : Prop := p.line = q.line ∧ p.column = q.column

theorem Position.Same.next {p q : Position} (h : p.Same q) {c d : Char} (hcd : c = '\n' ↔ d = '\n') :
    (p.next c).Same (q.next d) := by
  unfold Position.next
  by_cases hc : c = '\n'
  · rw [if_pos hc, if_pos (hcd.1 hc)]
    exact ⟨congrArg (· + 1) h.1, rfl⟩
  · rw [if_neg hc, if_neg fun hd => hc (hcd.2 hd)]
    exact ⟨h.1, congrArg (· + 1) h.2⟩

theorem Position.Same.advance {p q : Position} (h : p.Same q) (text : List Char) :
    (p.advance text).Same (q.advance text) := by
  induction text generalizing p q with
  | nil => exact h
  | cons c text ih => exact ih (h.next Iff.rfl)

namespace Slice

theorem landmark?_same {p q : Position} (h : p.Same q) (s : Slice) : s.landmark? p = s.landmark? q := by
  rw [landmark?, landmark?, h.1, h.2]

theorem measure_blank {c : Char} (hc : isInlineBlank c = true) (rest : List Char) :
    measure c rest = (.token .whitespace, (rest.takeWhile isInlineBlank).length) := by
  have slash : c ≠ '/' := by
    rintro rfl
    exact absurd hc (by decide)
  simp [measure, slash, hc]

/-- A blank is cut together with those after it. -/
theorem ofText_run {c : Char} (hc : isInlineBlank c = true) (r : List Char) :
    ofText (c :: r) = ⟨.token .whitespace, c :: r.takeWhile isInlineBlank⟩ :: ofText (r.dropWhile isInlineBlank) := by
  rw [ofText_cons, measure_blank hc, take_length_takeWhile, drop_length_takeWhile]

/-- A run of blanks leaves no landmark. -/
theorem landmarks_run (p : Position) (r : List Char) :
    landmarks (p.advance (r.takeWhile isInlineBlank)) (ofText (r.dropWhile isInlineBlank)) =
      landmarks p (ofText r) := by
  cases r with
  | nil => rfl
  | cons c r =>
    by_cases hc : isInlineBlank c = true
    · rw [ofText_run hc, List.takeWhile_cons_of_pos hc, List.dropWhile_cons_of_pos hc]
      rfl
    · rw [List.takeWhile_cons_of_neg hc, List.dropWhile_cons_of_neg hc]
      rfl

theorem landmarks_gap {c : Char} (hc : isGap c = true) (p : Position) (r : List Char) :
    landmarks p (ofText (c :: r)) = landmarks (p.next c) (ofText r) := by
  by_cases hn : c = '\n'
  · subst hn
    rw [ofText_symbol (by decide)]
    rfl
  · have hb : isInlineBlank c = true := by simpa [isGap, hn] using hc
    rw [ofText_run hb, ← landmarks_run (p.next c)]
    rfl

/-- Blanks and line feeds leave no landmark, whatever follows them. -/
theorem landmarks_gaps {g : List Char} (hg : ∀ c ∈ g, isGap c = true) (p : Position) (r : List Char) :
    landmarks p (ofText (g ++ r)) = landmarks (p.advance g) (ofText r) := by
  induction g generalizing p with
  | nil => rfl
  | cons c g ih =>
    rw [List.cons_append, landmarks_gap (hg c (by simp)), ih fun d hd => hg d (List.mem_cons_of_mem c hd)]
    rfl

end Slice

theorem withoutByteOrderMark_eq_self {cs : List Char} (h : cs.head? ≠ some '\uFEFF') :
    withoutByteOrderMark cs = cs := by
  cases cs with
  | nil => rfl
  | cons c cs =>
    have hc : c ≠ '\uFEFF' := by simpa using h
    simp [withoutByteOrderMark, hc]

end DocLint
