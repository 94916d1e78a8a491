import Mathlib.Data.Bool.AllAny
import DocLint.Proofs.Cut
import DocLint.Proofs.Lexeme

/-!
# Slices are maximal munch

`IsSlice` says which slice stands at the beginning of a text: the longest lexeme there, a comment with all it
takes, or, where no lexeme can be read, one character or what there is of a literal.  There is exactly one such
slice, and it is the one that `measure` finds; so a script has exactly one segmentation.
-/
namespace DocLint

open DocLint.Text
open Pattern (many)

/-- `l` reads `w`, no lexeme reads more, and none that reads as much goes before `l`. -/
structure Munch (input : List Char) (l : Lexeme) (w : List Char) : Prop where
  reads : l.Reads input w
  longest : ∀ (m : Lexeme) v, m.Reads input v → v.length ≤ w.length
  first : ∀ m : Lexeme, m.Reads input w → m = l ∨ l.beats m = true

/-- No lexeme can be read. -/
def Unreadable (input : List Char) : Prop := ∀ (l : Lexeme) w, ¬ l.Reads input w

/-- The slice at the beginning of a text. -/
inductive IsSlice (input : List Char) : Slice → Prop
  | lexeme {l : Lexeme} {w : List Char} (munch : Munch input l w) (whole : l.opensComment = false) :
      IsSlice input ⟨l.cls, w⟩
  | comment {l : Lexeme} {w rest ending : List Char} (munch : Munch input l w)
      (opens : l.opensComment = true) (split : input = w ++ rest) (closes : Closes rest ending) :
      IsSlice input ⟨l.cls, w ++ ending⟩
  | stray {c : Char} {rest : List Char} (split : input = c :: rest) (unreadable : Unreadable input)
      (plain : Slice.isQuote c = false) : IsSlice input ⟨.token .other, [c]⟩
  | unfinished {q : Char} {items rest : List Char} (split : input = q :: (items ++ rest))
      (unreadable : Unreadable input) (quote : Slice.isQuote q = true)
      (read : (many (Lexeme.item q)).Matches items) (stuck : Pattern.Fails (Lexeme.item q) rest) :
      IsSlice input ⟨.token .other, q :: items⟩

/-- A text cut into slices, each the one at the beginning of what is left. -/
inductive Segmentation : List Char → List Slice → Prop
  | nil : Segmentation [] []
  | cons {s : Slice} {ss : List Slice} {rest : List Char} (first : IsSlice (s.text ++ rest) s)
      (later : Segmentation rest ss) : Segmentation (s.text ++ rest) (s :: ss)

/-! ## There is one slice -/

theorem Munch.unique {input w v : List Char} {l m : Lexeme} (hl : Munch input l w) (hm : Munch input m v) :
    l = m ∧ w = v := by
  have hlen : w.length = v.length :=
    Nat.le_antisymm (hm.longest l w hl.reads) (hl.longest m v hm.reads)
  have hw : w = v := (List.prefix_of_prefix_length_le hl.reads.1 hm.reads.1 (Nat.le_of_eq hlen)).eq_of_length hlen
  subst hw
  refine ⟨?_, rfl⟩
  rcases hl.first m hm.reads with rfl | hb
  · rfl
  · rcases hm.first l hl.reads with rfl | hb'
    · rfl
    · cases l <;> cases m <;> simp [Lexeme.beats] at hb hb'

theorem ne_backslash_of_isQuote {q : Char} (h : Slice.isQuote q = true) : q ≠ '\\' := by
  rintro rfl
  exact absurd h (by decide)

/-- Every quote has its lexeme. -/
theorem exists_literal_of_isQuote {q : Char} (h : Slice.isQuote q = true) :
    ∃ l : Lexeme, l.pattern = Lexeme.literal q ∧ l.cls = .token .literal ∧ l.opensComment = false := by
  simp only [Slice.isQuote, Bool.or_eq_true, decide_eq_true_eq] at h
  rcases h with (rfl | rfl) | rfl
  · exact ⟨.doubleQuoted, rfl, rfl, rfl⟩
  · exact ⟨.singleQuoted, rfl, rfl, rfl⟩
  · exact ⟨.backQuoted, rfl, rfl, rfl⟩

/-- What was read of an unfinished literal is what is counted. -/
theorem literalItems_of_unfinished {q : Char} {items rest : List Char} (quote : Slice.isQuote q = true)
    (unreadable : Unreadable (q :: (items ++ rest))) (read : (many (Lexeme.item q)).Matches items)
    (stuck : Pattern.Fails (Lexeme.item q) rest) :
    Slice.literalItems q (items ++ rest) = (items.length, false) := by
  refine Lexeme.literalItems_eq (ne_backslash_of_isQuote quote) read ⟨stuck, fun hh => ?_⟩
  obtain ⟨l, hl, -⟩ := exists_literal_of_isQuote quote
  obtain ⟨r, rfl⟩ := List.head?_eq_some_iff.1 hh
  refine unreadable l (q :: (items ++ [q])) ⟨⟨r, by simp⟩, ?_⟩
  rw [hl]
  exact Lexeme.matches_literal.2 ⟨items, rfl, read⟩

theorem IsSlice.unique {input : List Char} {s t : Slice} (hs : IsSlice input s) (ht : IsSlice input t) :
    s = t := by
  cases hs with
  | lexeme hl whole =>
    cases ht with
    | lexeme hm _ =>
      obtain ⟨rfl, rfl⟩ := hl.unique hm
      rfl
    | comment hm opens =>
      obtain ⟨rfl, -⟩ := hl.unique hm
      rw [whole] at opens
      cases opens
    | stray _ unreadable | unfinished _ unreadable => exact absurd hl.reads (unreadable _ _)
  | comment hl opens split closes =>
    cases ht with
    | lexeme hm whole =>
      obtain ⟨rfl, -⟩ := hl.unique hm
      rw [whole] at opens
      cases opens
    | comment hm _ split' closes' =>
      obtain ⟨rfl, rfl⟩ := hl.unique hm
      obtain rfl := List.append_cancel_left (split.symm.trans split')
      rw [closes_iff.1 closes, closes_iff.1 closes']
    | stray _ unreadable | unfinished _ unreadable => exact absurd hl.reads (unreadable _ _)
  | stray split unreadable plain =>
    cases ht with
    | lexeme hm | comment hm => exact absurd hm.reads (unreadable _ _)
    | stray split' =>
      obtain ⟨rfl, -⟩ := List.cons.inj (split.symm.trans split')
      rfl
    | unfinished split' _ quote =>
      obtain ⟨rfl, -⟩ := List.cons.inj (split.symm.trans split')
      rw [plain] at quote
      cases quote
  | unfinished split unreadable quote read stuck =>
    cases ht with
    | lexeme hm | comment hm => exact absurd hm.reads (unreadable _ _)
    | stray split' _ plain =>
      obtain ⟨rfl, -⟩ := List.cons.inj (split.symm.trans split')
      rw [plain] at quote
      cases quote
    | unfinished split' unreadable' _ read' stuck' =>
      obtain ⟨rfl, hrest⟩ := List.cons.inj (split.symm.trans split')
      have h := literalItems_of_unfinished quote (split ▸ unreadable) read stuck
      rw [hrest, literalItems_of_unfinished quote (split' ▸ unreadable') read' stuck'] at h
      rw [(List.append_inj hrest (Prod.ext_iff.1 h).1.symm).1]

/-! ## The slice that is found -/

theorem nullable_pattern (l : Lexeme) : l.pattern.nullable = false := by
  cases l <;> rfl

/-- A lexeme is read only where it can start. -/
theorem Lexeme.Reads.starts {l : Lexeme} {c : Char} {rest w : List Char} (h : l.Reads (c :: rest) w) :
    l.pattern.starts c = true := by
  cases w with
  | nil => exact absurd (h.2.nullable_of_nil rfl) (by simp [nullable_pattern])
  | cons d w =>
    rw [← (List.cons_prefix_cons.1 h.1).1]
    exact h.2.starts_of_cons rfl

/-- A lexeme with a longest match wins if every other one falls short of it or is beaten. -/
theorem munch_of_longest {l : Lexeme} {input : List Char} {n : Nat} (hl : l.pattern.Longest input n)
    (others : ∀ (m : Lexeme) v, m ≠ l → m.Reads input v → v.length < n ∨ v.length = n ∧ l.beats m = true) :
    Munch input l (input.take n) := by
  have hlen : (input.take n).length = n := List.length_take_of_le hl.fits
  refine ⟨⟨List.take_prefix n input, hl.matched⟩, fun m v hm => ?_, fun m hm => ?_⟩
  · rw [hlen]
    by_cases hml : m = l
    · subst hml
      exact hl.greatest v hm.1 hm.2
    · rcases others m v hml hm with h | h
      · exact Nat.le_of_lt h
      · exact Nat.le_of_eq h.1
  · by_cases hml : m = l
    · exact .inl hml
    · rcases others m _ hml hm with h | h
      · omega
      · exact .inr h.2

theorem longest_text (cs rest : List Char) : (Pattern.text cs).Longest (cs ++ rest) cs.length where
  fits := by simp
  matched := by simp [Pattern.matches_text]
  greatest w _ hw := Nat.le_of_eq (congrArg List.length (Pattern.matches_text.1 hw))

/-- The characters that a lexeme begins with, where they can be listed. -/
def Lexeme.firsts : Lexeme → List Char
  | .docOpening | .plainOpening | .emptyComment | .lineComment => ['/']
  | .blank => [' ', '\t', '\r', '\x0c']
  | .lineFeed => ['\n']
  | .functionWord => ['f']
  | .classWord => ['c']
  | .openParen => ['(']
  | .closeParen => [')']
  | .openBrace => ['\x7b']
  | .closeBrace => ['\x7d']
  | .openBracket => ['[']
  | .closeBracket => [']']
  | .comma => [',']
  | .semicolon => [';']
  | .operator => operators
  | .doubleQuoted => ['\x22']
  | .singleQuoted => ['\x27']
  | .backQuoted => ['\x60']
  | .hexadecimal => ['0']
  | .nonAscii | .decimal | .identifier => []

theorem starts_iff {l : Lexeme} {c : Char} : l.pattern.starts c = true ↔
    c ∈ l.firsts ∨ l = .nonAscii ∧ 0x7f < c.toNat ∨ l = .decimal ∧ c.isDigit = true ∨
      l = .identifier ∧ Slice.isWordStart c = true := by
  cases l <;> simp [Lexeme.pattern, Lexeme.literal, Pattern.starts, Pattern.char, Pattern.some,
    Pattern.text, Pattern.nullable, Lexeme.firsts, Slice.isWordStart, or_assoc]

/-- The lexemes that begin with a slash. -/
theorem mem_of_starts_slash {l : Lexeme} (h : l.pattern.starts '/' = true) :
    l ∈ [.docOpening, .plainOpening, .emptyComment, .lineComment, .operator] := by
  revert h
  cases l <;> decide

/-- What can be read after a slash, by what follows it. -/
theorem reads_slash {l : Lexeme} {rest w : List Char} (h : l.Reads ('/' :: rest) w) :
    (l = .docOpening ∧ w.length = 3 ∧ ∃ cs, rest = '*' :: '*' :: cs) ∨
    (l = .plainOpening ∧ w.length = 2 ∧ ∃ cs, rest = '*' :: cs) ∨
    (l = .emptyComment ∧ w.length = 4 ∧ ∃ cs, rest = '*' :: '*' :: '/' :: cs) ∨
    (l = .lineComment ∧ ∃ cs, rest = '/' :: cs) ∨
    l = .operator ∧ w.length = 1 := by
  have fixed : ∀ {cs : List Char}, (Pattern.text ('/' :: cs)).Matches w →
      w.length = cs.length + 1 ∧ ∃ ds, rest = cs ++ ds := by
    intro cs hm
    rw [Pattern.matches_text] at hm
    obtain ⟨ds, hds⟩ := h.1
    subst hm
    exact ⟨rfl, ds, (List.cons.inj hds).2.symm⟩
  have hl := mem_of_starts_slash h.starts
  simp only [List.mem_cons, List.not_mem_nil, or_false] at hl
  rcases hl with rfl | rfl | rfl | rfl | rfl
  · exact .inl ⟨rfl, fixed h.2⟩
  · exact .inr (.inl ⟨rfl, fixed h.2⟩)
  · exact .inr (.inr (.inl ⟨rfl, fixed h.2⟩))
  · obtain ⟨c, t, rfl, -, ht⟩ := Pattern.matches_one_seq.1 h.2
    obtain ⟨d, u, rfl, hd, -⟩ := Pattern.matches_one_seq.1 ht
    obtain ⟨ds, hds⟩ := h.1
    refine .inr (.inr (.inr (.inl ⟨rfl, u ++ ds, ?_⟩)))
    rw [← (List.cons.inj hds).2, beq_iff_eq.1 hd]
    rfl
  · obtain ⟨c, rfl, -⟩ := Pattern.matches_one.1 h.2
    exact .inr (.inr (.inr (.inr ⟨rfl, rfl⟩)))

theorem isSlice_slash (rest : List Char) : IsSlice ('/' :: rest)
    ⟨(Slice.measureSlash rest).1, '/' :: rest.take (Slice.measureSlash rest).2⟩ := by
  unfold Slice.measureSlash
  split
  · next cs =>
    have hl : Lexeme.lineComment.pattern.Longest ('/' :: '/' :: cs)
        ((cs.takeWhile (· != '\n')).length + 1 + 1) := .cons rfl (.cons rfl (Pattern.longest_many_one _ cs))
    refine .lexeme (munch_of_longest hl fun m v hne hm => ?_) rfl
    rcases reads_slash hm with ⟨-, -, _, h⟩ | ⟨-, -, _, h⟩ | ⟨-, -, _, h⟩ | ⟨rfl, -⟩ | ⟨-, hv⟩
    · simp at h
    · simp at h
    · simp at h
    · exact absurd rfl hne
    · omega
  · next cs =>
    have hl : Lexeme.emptyComment.pattern.Longest ('/' :: '*' :: '*' :: '/' :: cs) 4 :=
      longest_text "/**/".toList cs
    refine .lexeme (munch_of_longest hl fun m v hne hm => ?_) rfl
    rcases reads_slash hm with ⟨-, hv, -⟩ | ⟨-, hv, -⟩ | ⟨rfl, -⟩ | ⟨-, _, h⟩ | ⟨-, hv⟩
    · omega
    · omega
    · exact absurd rfl hne
    · simp at h
    · omega
  · next cs hs =>
    have hl : Lexeme.docOpening.pattern.Longest ('/' :: '*' :: '*' :: cs) 3 := longest_text "/**".toList cs
    refine .comment (munch_of_longest hl fun m v hne hm => ?_) rfl rfl
      (closes_take_closeLength cs)
    rcases reads_slash hm with ⟨rfl, -⟩ | ⟨-, hv, -⟩ | ⟨-, -, ds, h⟩ | ⟨-, _, h⟩ | ⟨-, hv⟩
    · exact absurd rfl hne
    · omega
    · simp only [List.cons.injEq, true_and] at h
      exact (hs ds h).elim
    · simp at h
    · omega
  · next cs _ hs =>
    have hl : Lexeme.plainOpening.pattern.Longest ('/' :: '*' :: cs) 2 := longest_text "/*".toList cs
    refine .comment (munch_of_longest hl fun m v hne hm => ?_) rfl rfl
      (closes_take_closeLength cs)
    rcases reads_slash hm with ⟨-, -, ds, h⟩ | ⟨rfl, -⟩ | ⟨-, -, ds, h⟩ | ⟨-, _, h⟩ | ⟨-, hv⟩
    · exact (hs ds (List.cons.inj h).2).elim
    · exact absurd rfl hne
    · exact (hs _ (List.cons.inj h).2).elim
    · simp at h
    · omega
  · next hs₁ _ _ hs₂ =>
    have hl : Lexeme.operator.pattern.Longest ('/' :: rest) 1 := Pattern.longest_one rfl
    refine .lexeme (munch_of_longest hl fun m v hne hm => ?_) rfl
    rcases reads_slash hm with ⟨-, -, ds, h⟩ | ⟨-, -, ds, h⟩ | ⟨-, -, ds, h⟩ | ⟨-, ds, h⟩ | ⟨rfl, -⟩
    · exact (hs₂ _ h).elim
    · exact (hs₂ _ h).elim
    · exact (hs₂ _ h).elim
    · exact (hs₁ _ h).elim
    · exact absurd rfl hne

/-- A lexeme that is the only one to start with `c`. -/
theorem munch_of_starts {l : Lexeme} {c : Char} {rest : List Char} {n : Nat}
    (hl : l.pattern.Longest (c :: rest) n) (only : ∀ m : Lexeme, m.pattern.starts c = true → m = l) :
    Munch (c :: rest) l ((c :: rest).take n) :=
  munch_of_longest hl fun m _ hne hm => absurd (only m hm.starts) hne

theorem isSlice_blank {c : Char} (hc : Slice.isInlineBlank c = true) (rest : List Char) :
    IsSlice (c :: rest)
      ⟨.token .whitespace, c :: rest.take (rest.takeWhile Slice.isInlineBlank).length⟩ := by
  have hl : Lexeme.blank.pattern.Longest (c :: rest) ((rest.takeWhile Slice.isInlineBlank).length + 1) :=
    .cons hc (Pattern.longest_many_one _ rest)
  refine .lexeme (munch_of_starts hl fun m hm => ?_) rfl
  simp only [Slice.isInlineBlank, Bool.or_eq_true, decide_eq_true_eq] at hc
  rcases hc with ((rfl | rfl) | rfl) | rfl <;> revert hm <;> cases m <;> decide

theorem eq_of_starts_quote {q : Char} {l m : Lexeme} (hq : Slice.isQuote q = true)
    (hl : l.pattern.starts q = true) (hm : m.pattern.starts q = true) : m = l := by
  have one : ∀ m : Lexeme, m.pattern.starts q = true →
      m = if q = '\x22' then .doubleQuoted else if q = '\x27' then .singleQuoted else .backQuoted := by
    simp only [Slice.isQuote, Bool.or_eq_true, decide_eq_true_eq] at hq
    intro m hm
    rcases hq with (rfl | rfl) | rfl <;> revert hm <;> cases m <;> decide
  rw [one m hm, one l hl]

theorem isSlice_quote {q : Char} (hq : Slice.isQuote q = true) (rest : List Char) :
    IsSlice (q :: rest)
      ⟨(Slice.measureLiteral q rest).1, q :: rest.take (Slice.measureLiteral q rest).2⟩ := by
  have hb := ne_backslash_of_isQuote hq
  obtain ⟨l, hp, hcls, hopen⟩ := exists_literal_of_isQuote hq
  have hs : l.pattern.starts q = true := by
    rw [hp]
    simp [Lexeme.literal, Pattern.char, Pattern.starts]
  cases hi : Slice.literalItems q rest with
  | mk n closed =>
  cases closed with
  | true =>
    have hl := Lexeme.longest_literal hb (show (Slice.literalItems q rest).2 = true by rw [hi])
    rw [← hp, hi] at hl
    have hm := munch_of_starts hl fun m hm => eq_of_starts_quote hq hs hm
    rw [show Slice.measureLiteral q rest = (l.cls, n + 1) by simp [Slice.measureLiteral, hi, hcls]]
    exact .lexeme hm hopen
  | false =>
    obtain ⟨hread, hafter⟩ := Lexeme.literalItems_spec hb rest
    rw [hi] at hread hafter
    have hun : Unreadable (q :: rest) := by
      intro m w hm
      obtain rfl := eq_of_starts_quote hq hs hm.starts
      refine Lexeme.fails_literal hb (fun _ => ?_) w hm.1 (hp ▸ hm.2)
      rw [hi]
    rw [show Slice.measureLiteral q rest = (.token .other, n) by simp [Slice.measureLiteral, hi]]
    exact .unfinished (by rw [List.take_append_drop]) hun hq hread hafter.1

theorem toNat_lt_of_isAlphanum {c : Char} (h : c.isAlphanum = true) : c.toNat < 0x80 := by
  rcases Bool.or_eq_true_iff.1 h with h | h
  · rw [Slice.isAlpha_iff_toNat] at h
    omega
  · have hnine : c.toNat ≤ 57 := (Char.isDigit_iff_toNat.1 h).2
    omega

theorem toNat_lt_of_isWordStart {c : Char} (h : Slice.isWordStart c = true) : c.toNat < 0x80 := by
  simp only [Slice.isWordStart, Bool.or_eq_true, decide_eq_true_eq] at h
  rcases h with (h | rfl) | rfl
  · exact toNat_lt_of_isAlphanum (by simp [Char.isAlphanum, h])
  · decide
  · decide

/-- The lexemes that begin with a digit. -/
theorem eq_of_starts_digit {c : Char} (hc : c.isDigit = true) {l : Lexeme}
    (h : l.pattern.starts c = true) : l = .decimal ∨ l = .hexadecimal := by
  have listed : ∀ d ∈ l.firsts, d.isDigit = true → l = .hexadecimal :=
    List.all_iff_forall_prop.1 (by cases l <;> decide)
  rcases starts_iff.1 h with h | ⟨-, h⟩ | ⟨rfl, -⟩ | ⟨-, h⟩
  · exact .inr (listed c h hc)
  · have := toNat_lt_of_isAlphanum (c := c) (by simp [Char.isAlphanum, hc])
    omega
  · exact .inl rfl
  · rw [Slice.not_isWordStart_of_isDigit hc] at h
    cases h

theorem isSlice_digit {c : Char} (hc : c.isDigit = true) (rest : List Char) :
    IsSlice (c :: rest) ⟨.token .literal, c :: rest.take (Slice.numberLength c rest)⟩ := by
  by_cases hx : c = '0' ∧ Slice.hexLength rest ≠ 0
  · obtain ⟨rfl, hx⟩ := hx
    have hd := Lexeme.decimalLength_of_hexLength hx
    have hn : Slice.numberLength '0' rest = Slice.hexLength rest := by simp [Slice.numberLength, hd]
    rw [hn]
    have hl := Lexeme.longest_hexadecimal hx
    refine .lexeme (l := .hexadecimal) (munch_of_longest hl fun m v hne hm => ?_) rfl
    rcases eq_of_starts_digit hc hm.starts with rfl | rfl
    · have hv := (Lexeme.longest_decimal hc rest).greatest v hm.1 hm.2
      omega
    · exact absurd rfl hne
  · have hn : Slice.numberLength c rest = Slice.decimalLength rest := by
      unfold Slice.numberLength
      split
      · next h =>
        have : Slice.hexLength rest = 0 := by simpa [h] using hx
        omega
      · rfl
    have hf : Lexeme.hexadecimal.pattern.Fails (c :: rest) :=
      Lexeme.fails_hexadecimal fun h => by simpa [h] using hx
    rw [hn]
    refine .lexeme (l := .decimal) (munch_of_longest (Lexeme.longest_decimal hc rest) fun m v hne hm => ?_) rfl
    rcases eq_of_starts_digit hc hm.starts with rfl | rfl
    · exact absurd rfl hne
    · exact absurd hm.2 (hf v hm.1)

/-- The lexemes that begin as a word does. -/
theorem eq_of_starts_word {c : Char} (hc : Slice.isWordStart c = true) {l : Lexeme}
    (h : l.pattern.starts c = true) : l = .functionWord ∨ l = .classWord ∨ l = .identifier := by
  have listed : ∀ d ∈ l.firsts, Slice.isWordStart d = true → l = .functionWord ∨ l = .classWord :=
    List.all_iff_forall_prop.1 (by cases l <;> decide)
  rcases starts_iff.1 h with h | ⟨-, h⟩ | ⟨-, h⟩ | ⟨rfl, -⟩
  · exact (listed c h hc).imp_right .inl
  · have := toNat_lt_of_isWordStart hc
    omega
  · rw [Slice.not_isWordStart_of_isDigit h] at hc
    cases hc
  · exact .inr (.inr rfl)

theorem longest_identifier {c : Char} (hc : Slice.isWordStart c = true) (rest : List Char) :
    Lexeme.identifier.pattern.Longest (c :: rest) ((rest.takeWhile Slice.isWordChar).length + 1) :=
  .cons hc (Pattern.longest_many_one Slice.isWordChar rest)

/-- What can be read where a word begins: a keyword that the word begins with, or some of the word. -/
theorem reads_word {c : Char} {rest w : List Char} {l : Lexeme} (hc : Slice.isWordStart c = true)
    (h : l.Reads (c :: rest) w) :
    l = .functionWord ∧ w = "function".toList ∧ w <+: c :: rest.takeWhile Slice.isWordChar ∨
    l = .classWord ∧ w = "class".toList ∧ w <+: c :: rest.takeWhile Slice.isWordChar ∨
    l = .identifier ∧ w.length ≤ (rest.takeWhile Slice.isWordChar).length + 1 := by
  have keyword : (∀ d ∈ w, Slice.isWordChar d = true) → w <+: c :: rest.takeWhile Slice.isWordChar := by
    intro hw
    have hp := isPrefix_takeWhile h.1 hw
    rwa [List.takeWhile_cons_of_pos (Slice.isWordChar_of_isWordStart hc)] at hp
  rcases eq_of_starts_word hc h.starts with rfl | rfl | rfl
  · obtain rfl := Pattern.matches_text.1 h.2
    exact .inl ⟨rfl, rfl, keyword (List.all_eq_true.1 (by decide))⟩
  · obtain rfl := Pattern.matches_text.1 h.2
    exact .inr (.inl ⟨rfl, rfl, keyword (List.all_eq_true.1 (by decide))⟩)
  · exact .inr (.inr ⟨rfl, (longest_identifier hc rest).greatest w h.1 h.2⟩)

theorem isSlice_word {c : Char} (hc : Slice.isWordStart c = true) (rest : List Char) :
    IsSlice (c :: rest) ⟨.token (Slice.wordKind (c :: rest.takeWhile Slice.isWordChar)),
      c :: rest.take (rest.takeWhile Slice.isWordChar).length⟩ := by
  have hsplit : c :: rest = (c :: rest.takeWhile Slice.isWordChar) ++ rest.dropWhile Slice.isWordChar := by
    rw [List.cons_append, List.takeWhile_append_dropWhile]
  have hlen : ∀ {k : List Char}, c :: rest.takeWhile Slice.isWordChar = k →
      k.length = (rest.takeWhile Slice.isWordChar).length + 1 := by
    rintro _ rfl
    rfl
  unfold Slice.wordKind
  split
  · next hw =>
    have hl : Lexeme.functionWord.pattern.Longest (c :: rest) ((rest.takeWhile Slice.isWordChar).length + 1) := by
      rw [← hlen hw, hsplit, hw]
      exact longest_text _ _
    refine .lexeme (l := .functionWord) (munch_of_longest hl fun m v hne hm => ?_) rfl
    rcases reads_word hc hm with ⟨rfl, -⟩ | ⟨-, rfl, hp⟩ | ⟨rfl, hv⟩
    · exact absurd rfl hne
    · rw [hw] at hp
      exact absurd hp (by decide)
    · exact (Nat.lt_or_eq_of_le hv).imp_right fun h => ⟨h, rfl⟩
  · next hf =>
    split
    · next hw =>
      have hl : Lexeme.classWord.pattern.Longest (c :: rest) ((rest.takeWhile Slice.isWordChar).length + 1) := by
        rw [← hlen hw, hsplit, hw]
        exact longest_text _ _
      refine .lexeme (l := .classWord) (munch_of_longest hl fun m v hne hm => ?_) rfl
      rcases reads_word hc hm with ⟨-, rfl, hp⟩ | ⟨rfl, -⟩ | ⟨rfl, hv⟩
      · rw [hw] at hp
        exact absurd hp (by decide)
      · exact absurd rfl hne
      · exact (Nat.lt_or_eq_of_le hv).imp_right fun h => ⟨h, rfl⟩
    · next hk =>
      -- A keyword at the beginning of a longer word is shorter than the word.
      have shorter : ∀ {v : List Char}, v <+: c :: rest.takeWhile Slice.isWordChar →
          c :: rest.takeWhile Slice.isWordChar ≠ v → v.length < (rest.takeWhile Slice.isWordChar).length + 1 := by
        intro v hp hne
        exact Nat.lt_of_le_of_ne hp.length_le fun h => hne (hp.eq_of_length h).symm
      refine .lexeme (l := .identifier) (munch_of_longest (longest_identifier hc rest) fun m v hne hm => ?_) rfl
      rcases reads_word hc hm with ⟨-, rfl, hp⟩ | ⟨-, rfl, hp⟩ | ⟨rfl, -⟩
      · exact .inl (shorter hp hf)
      · exact .inl (shorter hp hk)
      · exact absurd rfl hne

/-- The lexeme of a character that is a token of its own. -/
def symbolLexeme : Char → Lexeme
  | '\n' => .lineFeed
  | '(' => .openParen
  | ')' => .closeParen
  | '\x7b' => .openBrace
  | '\x7d' => .closeBrace
  | '[' => .openBracket
  | ']' => .closeBracket
  | ',' => .comma
  | ';' => .semicolon
  | _ => .operator

theorem cls_symbolLexeme (c : Char) : (symbolLexeme c).cls = .token (Slice.symbolKind c) := by
  unfold Slice.symbolKind
  split
  case h_10 => rw [symbolLexeme] <;> first | rfl | assumption
  all_goals rfl

theorem opensComment_symbolLexeme (c : Char) : (symbolLexeme c).opensComment = false := by
  unfold symbolLexeme
  split <;> rfl

theorem longest_symbolLexeme {c : Char} (h : (symbolLexeme c).pattern.starts c = true) (rest : List Char) :
    (symbolLexeme c).pattern.Longest (c :: rest) 1 := by
  obtain ⟨p, hp⟩ : ∃ p, (symbolLexeme c).pattern = Pattern.one p := by
    unfold symbolLexeme
    split <;> exact ⟨_, rfl⟩
  rw [hp] at h ⊢
  exact Pattern.longest_one h

/-- A character that is none of the symbols has no kind of its own. -/
theorem symbolKind_of_not_mem {c : Char} (h : c ∉ (symbolLexeme c).firsts) : Slice.symbolKind c = .other := by
  unfold Slice.symbolKind
  split
  case h_10 => rfl
  all_goals exact absurd h (by decide)

/-- The lexemes that begin with what begins nothing longer. -/
theorem eq_of_starts_symbol {c : Char} {l : Lexeme} (h : l.pattern.starts c = true) (slash : c ≠ '/')
    (blank : Slice.isInlineBlank c = false) (quote : Slice.isQuote c = false) (digit : c.isDigit = false)
    (word : Slice.isWordStart c = false) :
    l = symbolLexeme c ∧ c ∈ l.firsts ∨ l = .nonAscii ∧ 0x7f < c.toNat := by
  have listed : ∀ d ∈ l.firsts, d ≠ '/' → Slice.isInlineBlank d = false → Slice.isQuote d = false →
      d.isDigit = false → Slice.isWordStart d = false → l = symbolLexeme d :=
    List.all_iff_forall_prop.1 (by cases l <;> decide)
  rcases starts_iff.1 h with h | h | ⟨-, h⟩ | ⟨-, h⟩
  · exact .inl ⟨listed c h slash blank quote digit word, h⟩
  · exact .inr h
  · rw [digit] at h
    cases h
  · rw [word] at h
    cases h

theorem toNat_le_of_mem_firsts {l : Lexeme} {c : Char} (h : c ∈ l.firsts) : c.toNat ≤ 0x7f := by
  have listed : ∀ d ∈ l.firsts, d.toNat ≤ 0x7f := List.all_iff_forall_prop.1 (by cases l <;> decide)
  exact listed c h

theorem isSlice_symbol {c : Char} (rest : List Char) (slash : c ≠ '/')
    (blank : Slice.isInlineBlank c = false) (quote : Slice.isQuote c = false) (digit : c.isDigit = false)
    (word : Slice.isWordStart c = false) : IsSlice (c :: rest) ⟨.token (Slice.symbolKind c), [c]⟩ := by
  have starts : ∀ m : Lexeme, m.pattern.starts c = true →
      m = symbolLexeme c ∧ c ∈ m.firsts ∨ m = .nonAscii ∧ 0x7f < c.toNat :=
    fun m hm => eq_of_starts_symbol hm slash blank quote digit word
  by_cases hmem : c ∈ (symbolLexeme c).firsts
  · have hl := longest_symbolLexeme (starts_iff.2 (.inl hmem)) rest
    rw [← cls_symbolLexeme]
    refine .lexeme (munch_of_starts hl fun m hm => ?_) (opensComment_symbolLexeme c)
    rcases starts m hm with ⟨h, -⟩ | ⟨-, h⟩
    · exact h
    · have := toNat_le_of_mem_firsts hmem
      omega
  rw [symbolKind_of_not_mem hmem]
  have only : ∀ m : Lexeme, m.pattern.starts c = true → m = .nonAscii ∧ 0x7f < c.toNat := by
    intro m hm
    rcases starts m hm with ⟨rfl, h⟩ | h
    · exact absurd h hmem
    · exact h
  by_cases high : 0x7f < c.toNat
  · have hl : Lexeme.nonAscii.pattern.Longest (c :: rest) 1 := Pattern.longest_one (decide_eq_true high)
    exact .lexeme (munch_of_starts hl fun m hm => (only m hm).1) rfl
  · exact .stray rfl (fun m w hm => high (only m hm.starts).2) quote

/-- The slice that is found is the one that stands there. -/
theorem isSlice_measure (c : Char) (rest : List Char) :
    IsSlice (c :: rest) ⟨(Slice.measure c rest).1, c :: rest.take (Slice.measure c rest).2⟩ := by
  unfold Slice.measure
  split
  · next h => subst h; exact isSlice_slash rest
  next slash =>
  split
  · next h => exact isSlice_blank h rest
  next blank =>
  split
  · next h => exact isSlice_quote h rest
  next quote =>
  split
  · next h => exact isSlice_digit h rest
  next digit =>
  split
  · next h => exact isSlice_word h rest
  next word =>
  simp only [Bool.not_eq_true] at blank quote digit word
  exact isSlice_symbol rest slash blank quote digit word

/-! ## There is one segmentation -/

theorem segmentation_ofText (cs : List Char) : Segmentation cs (Slice.ofText cs) := by
  fun_induction Slice.ofText cs with
  | case1 => exact .nil
  | case2 c cs cls n h ih =>
    have hs := isSlice_measure c cs
    rw [h] at hs
    have hsplit : c :: cs = (⟨cls, c :: cs.take n⟩ : Slice).text ++ cs.drop n := by simp
    rw [hsplit] at hs ⊢
    exact .cons hs ih

theorem IsSlice.text_ne_nil {input : List Char} {s : Slice} (h : IsSlice input s) : s.text ≠ [] := by
  have reads : ∀ {l : Lexeme} {w : List Char}, Munch input l w → w ≠ [] := by
    rintro l _ hm rfl
    exact absurd (hm.reads.2.nullable_of_nil rfl) (by simp [nullable_pattern])
  cases h with
  | lexeme hm => exact reads hm
  | comment hm => simp [reads hm]
  | stray | unfinished => simp

theorem Segmentation.unique {cs : List Char} {ss ts : List Slice} (hs : Segmentation cs ss)
    (ht : Segmentation cs ts) : ss = ts := by
  induction hs generalizing ts with
  | nil =>
    generalize hcs : ([] : List Char) = cs at ht
    cases ht with
    | nil => rfl
    | cons first => exact absurd (List.append_eq_nil_iff.1 hcs.symm).1 first.text_ne_nil
  | @cons s ss rest first later ih =>
    generalize hcs : s.text ++ rest = cs at ht
    cases ht with
    | nil => exact absurd (List.append_eq_nil_iff.1 hcs).1 first.text_ne_nil
    | @cons t ts rest' first' later' =>
      rw [← hcs] at first'
      obtain rfl := first.unique first'
      obtain rfl := List.append_cancel_left hcs
      rw [ih later']

/-- A script has exactly one segmentation by longest lexemes.  It is the one by which the script is cut, and its
slices give the tokens of the script. -/
theorem lex_slices_maximal_munch (source : List Char) :
    Segmentation source (Slice.ofText source) ∧
    ∀ ss, Segmentation source ss → ss = Slice.ofText source ∧ lex source = Slice.layout .start ss := by
  refine ⟨segmentation_ofText source, fun ss h => ?_⟩
  obtain rfl := h.unique (segmentation_ofText source)
  exact ⟨rfl, rfl⟩

end DocLint
