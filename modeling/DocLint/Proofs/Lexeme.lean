import DocLint.Proofs.Comment
import DocLint.Proofs.Pattern

/-!
# The lexemes of a script

The patterns by which a script is cut, and for each kind of lexeme that is more than a fixed text the longest
match at the beginning of a text: runs, numbers with their optional parts, and literals in quotes.
-/
namespace DocLint

open DocLint.Text
open Pattern (one seq either many char text optional)

inductive Lexeme where
  | docOpening
  | plainOpening
  | emptyComment
  | lineComment
  | blank
  | lineFeed
  | functionWord
  | classWord
  | openParen
  | closeParen
  | openBrace
  | closeBrace
  | openBracket
  | closeBracket
  | comma
  | semicolon
  | operator
  | nonAscii
  | doubleQuoted
  | singleQuoted
  | backQuoted
  | decimal
  | hexadecimal
  | identifier
  deriving DecidableEq, Repr

namespace Lexeme

def operators : List Char := "=+-*/%<>!&|^~?:.@#".toList

/-- The characters that a literal in quotes `q` holds as they are. -/
def isPlain (q c : Char) : Bool := c != q && c != '\\' && (c != '\n' || q == '\x60')

/-- An item of a literal: a character, or a backslash and a character other than a line feed. -/
def item (q : Char) : Pattern := either (one (isPlain q)) (seq (char '\\') (one (· != '\n')))

def literal (q : Char) : Pattern := seq (char q) (seq (many (item q)) (char q))

def isSign (c : Char) : Bool := c = '+' || c = '-'

def digits : Pattern := Pattern.some (one Char.isDigit)

def fraction : Pattern := seq (char '.') digits

def exponent : Pattern :=
  seq (one fun c => c = 'e' || c = 'E') (seq (optional (one isSign)) digits)

def pattern : Lexeme → Pattern
  | docOpening => text "/**".toList
  | plainOpening => text "/*".toList
  | emptyComment => text "/**/".toList
  | lineComment => seq (char '/') (seq (char '/') (many (one (· != '\n'))))
  | blank => Pattern.some (one fun c => c = ' ' || c = '\t' || c = '\r' || c = '\x0c')
  | lineFeed => char '\n'
  | functionWord => text "function".toList
  | classWord => text "class".toList
  | openParen => char '('
  | closeParen => char ')'
  | openBrace => char '\x7b'
  | closeBrace => char '\x7d'
  | openBracket => char '['
  | closeBracket => char ']'
  | comma => char ','
  | semicolon => char ';'
  | operator => one operators.contains
  | nonAscii => one (0x7f < ·.toNat)
  | doubleQuoted => literal '\x22'
  | singleQuoted => literal '\x27'
  | backQuoted => literal '\x60'
  | decimal =>
    seq (one Char.isDigit) (seq (many (one fun c => c.isDigit || c = '_'))
      (seq (optional fraction) (optional exponent)))
  | hexadecimal => seq (char '0') (seq (one fun c => c = 'x' || c = 'X')
      (Pattern.some (one fun c => c.isDigit || ('a' ≤ c && c ≤ 'f') || ('A' ≤ c && c ≤ 'F') || c = '_')))
  | identifier => seq (one fun c => c.isAlpha || c = '_' || c = '$')
      (many (one fun c => c.isAlphanum || c = '_' || c = '$'))

/-- What becomes of a lexeme. -/
def cls : Lexeme → SliceClass
  | docOpening => .doc
  | plainOpening | emptyComment | lineComment => .dropped
  | blank => .token .whitespace
  | lineFeed => .token .newline
  | functionWord => .token .functionKeyword
  | classWord => .token .classKeyword
  | openParen => .token .openParen
  | closeParen => .token .closeParen
  | openBrace => .token .openBrace
  | closeBrace => .token .closeBrace
  | openBracket => .token .openBracket
  | closeBracket => .token .closeBracket
  | comma => .token .comma
  | semicolon => .token .semicolon
  | operator | nonAscii => .token .other
  | doubleQuoted | singleQuoted | backQuoted | decimal | hexadecimal => .token .literal
  | identifier => .token .identifier

/-- An opening goes on to where the comment closes. -/
def opensComment : Lexeme → Bool
  | docOpening | plainOpening => true
  | _ => false

/-- A word that is both a keyword and an identifier is a keyword. -/
def beats : Lexeme → Lexeme → Bool
  | functionWord, identifier | classWord, identifier => true
  | _, _ => false

/-- `l` matches `w` at the beginning of `input`. -/
def Reads (l : Lexeme) (input w : List Char) : Prop := w <+: input ∧ l.pattern.Matches w

/-! ## Numbers -/

theorem longest_digits {cs : List Char} (h : Slice.digitCount cs ≠ 0) :
    Pattern.Longest digits cs (Slice.digitCount cs) :=
  Pattern.longest_some_one (List.ne_nil_of_length_pos (Nat.pos_of_ne_zero h))

theorem fails_digits {cs : List Char} (h : Slice.digitCount cs = 0) : Pattern.Fails digits cs :=
  Pattern.fails_some_one (List.length_eq_zero_iff.1 h)

theorem longest_fraction (cs : List Char) :
    Pattern.Longest (optional fraction) cs (Slice.fractionLength cs) := by
  unfold Slice.fractionLength
  split
  · next ds =>
    split
    · next h => exact (fails_digits h).cons.optional
    · next h => exact ((longest_digits h).cons rfl).optional
  · next h =>
    refine (Pattern.fails_one_seq_of_stops ?_).optional
    cases cs with
    | nil => simp
    | cons c ds => rw [stops_cons, beq_eq_false_iff_ne]; rintro rfl; exact h ds rfl

theorem not_isDigit_of_isSign {c : Char} (h : isSign c = true) : c.isDigit = false := by
  simp only [isSign, Bool.or_eq_true, decide_eq_true_eq] at h
  rcases h with rfl | rfl <;> rfl

theorem longest_sign_digits {s : Char} {ds : List Char} (hs : isSign s = true)
    (h : Slice.digitCount ds ≠ 0) :
    Pattern.Longest (seq (optional (one isSign)) digits) (s :: ds) (1 + Slice.digitCount ds) := by
  refine (Pattern.longest_one hs).optional.seq (longest_digits h) fun w v hwv _ hlt hv => ?_
  obtain rfl : w = [] := List.length_eq_zero_iff.1 (by omega)
  obtain ⟨hne, hall⟩ := Pattern.matches_some_one.1 hv
  cases v with
  | nil => rfl
  | cons c v =>
    have hc := hall c List.mem_cons_self
    rw [(List.cons_prefix_cons.1 hwv).1, not_isDigit_of_isSign hs] at hc
    cases hc

theorem fails_sign_digits {s : Char} {ds : List Char} (hs : isSign s = true)
    (h : Slice.digitCount ds = 0) : Pattern.Fails (seq (optional (one isSign)) digits) (s :: ds) := by
  intro u hu hm
  obtain ⟨w, v, rfl, hw, hv⟩ := Pattern.matches_seq.1 hm
  rcases Pattern.matches_optional.1 hw with rfl | hw
  · refine fails_digits ?_ v hu hv
    simp [Slice.digitCount, not_isDigit_of_isSign hs]
  · obtain ⟨c, rfl, -⟩ := Pattern.matches_one.1 hw
    exact fails_digits h v (List.cons_prefix_cons.1 hu).2 hv

/-- Without a sign the digits follow at once. -/
theorem longest_unsigned {cs : List Char} (hs : Stops isSign cs) (h : Slice.digitCount cs ≠ 0) :
    Pattern.Longest (seq (optional (one isSign)) digits) cs (Slice.digitCount cs) := by
  have hn : Pattern.Longest (optional (one isSign)) cs 0 := by
    refine Pattern.Fails.optional fun w hw hm => ?_
    obtain ⟨c, rfl, hc⟩ := Pattern.matches_one.1 hm
    obtain ⟨r, rfl⟩ := hw
    rw [List.cons_append, stops_cons, hc] at hs
    cases hs
  have := hn.seq (longest_digits h) fun w v _ _ hlt _ => absurd hlt (Nat.not_lt_zero _)
  rwa [Nat.zero_add] at this

theorem fails_unsigned {cs : List Char} (hs : Stops isSign cs) (h : Slice.digitCount cs = 0) :
    Pattern.Fails (seq (optional (one isSign)) digits) cs := by
  intro u hu hm
  obtain ⟨w, v, rfl, hw, hv⟩ := Pattern.matches_seq.1 hm
  rcases Pattern.matches_optional.1 hw with rfl | hw
  · exact fails_digits h v hu hv
  · obtain ⟨c, rfl, hc⟩ := Pattern.matches_one.1 hw
    obtain ⟨r, rfl⟩ := hu
    simp [hc] at hs

theorem longest_exponent (cs : List Char) :
    Pattern.Longest (optional exponent) cs (Slice.exponentLength cs) := by
  unfold Slice.exponentLength
  split
  · next c cs =>
    split
    · next hc =>
      split
      · next s ds =>
        unfold Slice.exponentDigits
        split
        · next hs =>
          have hs : isSign s = true := hs
          split
          · next h => exact (fails_sign_digits hs h).cons.optional
          · next h =>
            rw [show 2 + Slice.digitCount ds = 1 + Slice.digitCount ds + 1 by omega]
            exact ((longest_sign_digits hs h).cons hc).optional
        · next hs =>
          have hs : Stops isSign (s :: ds) := by simpa [isSign] using hs
          split
          · next h => exact (fails_unsigned hs h).cons.optional
          · next h => rw [Nat.add_comm]; exact ((longest_unsigned hs h).cons hc).optional
      · exact (fails_unsigned (by simp) rfl).cons.optional
    · next hc => exact (Pattern.fails_one_seq_of_stops (by simpa using hc)).optional
  · exact (Pattern.fails_one_seq_of_stops (by simp)).optional

/-- After a fraction that was stopped early stands its point or another digit. -/
theorem of_fraction_stopped_early {cs w t : List Char} {c : Char} (hw : w ++ c :: t <+: cs)
    (hm : (optional fraction).Matches w) (hlt : w.length < Slice.fractionLength cs) :
    c = '.' ∨ c.isDigit = true := by
  unfold Slice.fractionLength at hlt
  split at hlt
  · next ds =>
    split at hlt
    · exact absurd hlt (Nat.not_lt_zero _)
    · rcases Pattern.matches_optional.1 hm with rfl | hm
      · exact .inl (List.cons_prefix_cons.1 hw).1
      · obtain ⟨d, v, rfl, -, -⟩ := Pattern.matches_one_seq.1 hm
        exact .inr (Pattern.of_stopped_early (List.cons_prefix_cons.1 hw).2 (Nat.lt_of_succ_lt_succ hlt))
  · exact absurd hlt (Nat.not_lt_zero _)

theorem longest_fraction_exponent (cs : List Char) :
    Pattern.Longest (seq (optional fraction) (optional exponent)) cs
      (Slice.fractionLength cs + Slice.exponentLength (cs.drop (Slice.fractionLength cs))) := by
  refine (longest_fraction cs).seq (longest_exponent _) fun w v hwv hw hlt hv => ?_
  cases v with
  | nil => rfl
  | cons c v =>
    have hs : c = 'e' ∨ c = 'E' := by
      simpa [Pattern.optional, exponent, Pattern.starts, Pattern.nullable] using hv.starts_of_cons rfl
    have hc := of_fraction_stopped_early hwv hw hlt
    rcases hs with rfl | rfl <;> simp at hc

theorem longest_decimal {c : Char} (hc : c.isDigit = true) (rest : List Char) :
    Pattern.Longest decimal.pattern (c :: rest) (Slice.decimalLength rest + 1) := by
  refine Pattern.Longest.cons hc ?_
  have hl := (Pattern.longest_many_one (fun c => c.isDigit || c = '_') rest).seq
    (longest_fraction_exponent _) fun w v hwv _ hlt hv => ?_
  · rw [Slice.decimalLength, Nat.add_assoc, ← List.drop_drop]
    exact hl
  · cases v with
    | nil => rfl
    | cons d v =>
      have hs : d = '.' ∨ d = 'e' ∨ d = 'E' := by
        simpa [Pattern.optional, fraction, exponent, char, Pattern.starts, Pattern.nullable]
          using hv.starts_of_cons rfl
      have hd := Pattern.of_stopped_early hwv hlt
      rcases hs with rfl | rfl | rfl <;> simp at hd

/-- A hexadecimal number is its zero, an `x`, and at least one digit. -/
theorem exists_of_hexLength_ne_zero {rest : List Char} (h : Slice.hexLength rest ≠ 0) :
    ∃ x cs, rest = x :: cs ∧ (x = 'x' ∨ x = 'X') ∧ cs.takeWhile Slice.isHexChar ≠ [] ∧
      Slice.hexLength rest = (cs.takeWhile Slice.isHexChar).length + 1 := by
  cases rest with
  | nil => exact absurd rfl h
  | cons x cs =>
    by_cases hx : ((x = 'x' || x = 'X') && (cs.takeWhile Slice.isHexChar).length != 0) = true
    · refine ⟨x, cs, rfl, ?_, ?_, if_pos hx⟩
      · simpa using (Bool.and_eq_true_iff.1 hx).1
      · simpa using (Bool.and_eq_true_iff.1 hx).2
    · exact absurd (if_neg hx) h

theorem longest_hexadecimal {rest : List Char} (h : Slice.hexLength rest ≠ 0) :
    Pattern.Longest hexadecimal.pattern ('0' :: rest) (Slice.hexLength rest + 1) := by
  obtain ⟨x, cs, rfl, hx, hne, hlen⟩ := exists_of_hexLength_ne_zero h
  rw [hlen]
  exact .cons rfl (.cons (by simpa using hx) (Pattern.longest_some_one hne))

theorem fails_hexadecimal {c : Char} {rest : List Char} (h : c = '0' → Slice.hexLength rest = 0) :
    Pattern.Fails hexadecimal.pattern (c :: rest) := by
  by_cases hc : c = '0'
  · refine Pattern.Fails.cons ?_
    cases rest with
    | nil => exact Pattern.fails_one_seq_of_stops (by simp)
    | cons x cs =>
      by_cases hx : x = 'x' ∨ x = 'X'
      · refine Pattern.Fails.cons (Pattern.fails_some_one (show cs.takeWhile Slice.isHexChar = [] from ?_))
        have h := h hc
        simp only [Slice.hexLength, decide_eq_true hx, ← Bool.decide_or, Bool.true_and] at h
        split at h
        · cases h
        · next hn => simpa using hn
      · exact Pattern.fails_one_seq_of_stops (by simpa using hx)
  · exact Pattern.fails_one_seq_of_stops (by simpa using hc)

/-- Before an `x` a decimal number is just its zero. -/
theorem decimalLength_of_hexLength {rest : List Char} (h : Slice.hexLength rest ≠ 0) :
    Slice.decimalLength rest = 0 := by
  obtain ⟨x, cs, rfl, rfl | rfl, -⟩ := exists_of_hexLength_ne_zero h
  · simp [Slice.decimalLength, Slice.fractionLength, Slice.exponentLength]
  · simp [Slice.decimalLength, Slice.fractionLength, Slice.exponentLength]

/-! ## Literals -/

theorem matches_item {q : Char} {w : List Char} : (item q).Matches w ↔
    (∃ c, w = [c] ∧ isPlain q c = true) ∨ ∃ c, w = ['\\', c] ∧ c ≠ '\n' := by
  rw [item, Pattern.matches_either, Pattern.matches_one, char, Pattern.matches_one_seq]
  refine or_congr Iff.rfl ?_
  constructor
  · rintro ⟨b, t, rfl, hb, ht⟩
    obtain ⟨c, rfl, hc⟩ := Pattern.matches_one.1 ht
    exact ⟨c, by rw [beq_iff_eq.1 hb], by simpa using hc⟩
  · rintro ⟨c, rfl, hc⟩
    exact ⟨'\\', [c], rfl, rfl, .one (by simpa using hc)⟩

variable {q c : Char} {cs : List Char}

theorem isPlain_iff : isPlain q c = true ↔ c ≠ q ∧ c ≠ '\\' ∧ (c = '\n' → q = '\x60') := by
  simp only [isPlain, Bool.and_eq_true, bne_iff_ne, Bool.or_eq_true, beq_iff_eq, and_assoc]
  refine and_congr Iff.rfl (and_congr Iff.rfl ?_)
  exact Decidable.imp_iff_not_or.symm

theorem literalItems_plain (h : isPlain q c = true) :
    Slice.literalItems q (c :: cs) = ((Slice.literalItems q cs).1 + 1, (Slice.literalItems q cs).2) := by
  obtain ⟨hq, hb, hn⟩ := isPlain_iff.1 h
  rw [Slice.literalItems.eq_3 _ _ _ fun _ _ h => absurd h hb, if_neg hq, if_neg]
  simpa [hb] using hn

theorem literalItems_escape (h : c ≠ '\n') : Slice.literalItems q ('\\' :: c :: cs) =
    ((Slice.literalItems q cs).1 + 2, (Slice.literalItems q cs).2) := by
  rw [Slice.literalItems, if_neg h]

theorem literalItems_quote (h : q ≠ '\\') : Slice.literalItems q (q :: cs) = (0, true) := by
  rw [Slice.literalItems.eq_3 _ _ _ fun _ _ hb => absurd hb h, if_pos rfl]

/-- Items are passed over, whatever follows them. -/
theorem literalItems_append {items : List Char} (h : (many (item q)).Matches items) (rest : List Char) :
    Slice.literalItems q (items ++ rest) =
      ((Slice.literalItems q rest).1 + items.length, (Slice.literalItems q rest).2) := by
  generalize hm : many (item q) = m at h
  induction h with
  | nothing | one | seq | left | right => cases hm
  | done => rfl
  | @more a s t hs _ _ ih =>
    cases hm
    rcases matches_item.1 hs with ⟨c, rfl, hc⟩ | ⟨c, rfl, hc⟩
    · rw [List.append_assoc, List.singleton_append, literalItems_plain hc, ih rfl]
      simp [Nat.add_assoc]
    · rw [List.append_assoc, List.cons_append, List.singleton_append, literalItems_escape hc, ih rfl]
      simp [Nat.add_assoc]

theorem fails_item (plain : Stops (isPlain q) cs) (escape : ∀ d r, cs = '\\' :: d :: r → d = '\n') :
    Pattern.Fails (item q) cs := by
  rintro w ⟨r, rfl⟩ hm
  rcases matches_item.1 hm with ⟨d, rfl, hd⟩ | ⟨d, rfl, hd⟩
  · rw [List.singleton_append, stops_cons, hd] at plain
    cases plain
  · exact hd (escape d r rfl)

/-- What may follow the items of a literal: its closing quote, or the beginning of no further item. -/
def AfterItems (q : Char) (closed : Bool) (rest : List Char) : Prop :=
  if closed then rest.head? = some q else Pattern.Fails (item q) rest ∧ rest.head? ≠ some q

theorem literalItems_spec (hq : q ≠ '\\') (cs : List Char) :
    (many (item q)).Matches (cs.take (Slice.literalItems q cs).1) ∧
      AfterItems q (Slice.literalItems q cs).2 (cs.drop (Slice.literalItems q cs).1) := by
  fun_induction Slice.literalItems q cs with
  | case1 => exact ⟨.done, fails_item (by simp) (by simp), by simp⟩
  | case2 cs =>
    refine ⟨.done, fails_item ?_ ?_, ?_⟩
    · simp [isPlain]
    · intro d r h
      exact (List.cons.inj (List.cons.inj h).2).1.symm
    · simpa using hq.symm
  | case3 c cs hc n closed hm ih =>
    rw [hm] at ih
    exact ⟨.more (s := ['\\', c]) (matches_item.2 (.inr ⟨c, rfl, hc⟩)) ih.1, ih.2⟩
  | case4 cs hb => exact ⟨.done, rfl⟩
  | case5 c cs hb hcq hc =>
    refine ⟨.done, fails_item ?_ fun d r h => ?_, by simpa using hcq⟩
    · simp only [List.drop_zero, stops_cons, isPlain]
      rcases Bool.or_eq_true_iff.1 hc with hc | hc <;> simp_all
    · obtain ⟨rfl, rfl⟩ := List.cons.inj h
      exact (hb d r rfl rfl).elim
  | case6 c cs hb hcq hc n closed hm ih =>
    rw [hm] at ih
    have hp : isPlain q c = true := by
      refine isPlain_iff.2 ⟨hcq, ?_, ?_⟩ <;> simp_all
    exact ⟨.more (s := [c]) (matches_item.2 (.inl ⟨c, rfl, hp⟩)) ih.1, ih.2⟩

theorem literalItems_of_fails (hq : q ≠ '\\') (hf : Pattern.Fails (item q) cs) (hne : cs.head? ≠ some q) :
    Slice.literalItems q cs = (0, false) := by
  obtain ⟨hm, hr⟩ := literalItems_spec hq cs
  rcases List.take_eq_nil_iff.1 (hf.eq_nil_of_many (List.take_prefix _ _) hm) with hn | rfl
  · refine Prod.ext hn ?_
    cases hc : (Slice.literalItems q cs).2 with
    | false => rfl
    | true =>
      rw [hc, hn, List.drop_zero] at hr
      exact absurd hr hne
  · rfl

/-- The items that can be read are those that are counted. -/
theorem literalItems_eq (hq : q ≠ '\\') {items rest : List Char} {closed : Bool}
    (hi : (many (item q)).Matches items) (hr : AfterItems q closed rest) :
    Slice.literalItems q (items ++ rest) = (items.length, closed) := by
  rw [literalItems_append hi]
  cases closed with
  | true =>
    obtain ⟨r, rfl⟩ := List.head?_eq_some_iff.1 hr
    rw [literalItems_quote hq, Nat.zero_add]
  | false => rw [literalItems_of_fails hq hr.1 hr.2, Nat.zero_add]

theorem matches_literal {w : List Char} :
    (literal q).Matches w ↔ ∃ items, w = q :: (items ++ [q]) ∧ (many (item q)).Matches items := by
  rw [literal, char, Pattern.matches_one_seq]
  constructor
  · rintro ⟨c, t, rfl, hc, ht⟩
    obtain ⟨items, u, rfl, hi, hu⟩ := Pattern.matches_seq.1 ht
    exact ⟨items, by rw [beq_iff_eq.1 hc, Pattern.matches_char.1 hu], hi⟩
  · rintro ⟨items, rfl, hi⟩
    exact ⟨q, items ++ [q], rfl, beq_iff_eq.2 rfl, .seq hi (Pattern.matches_char.2 rfl)⟩

/-- A literal that is read ends with the first quote that is no part of an item. -/
theorem literalItems_of_reads (hq : q ≠ '\\') {w : List Char} (hw : w <+: c :: cs)
    (hm : (literal q).Matches w) : c = q ∧ Slice.literalItems q cs = (w.length - 2, true) := by
  obtain ⟨items, rfl, hi⟩ := matches_literal.1 hm
  obtain ⟨rfl, r, rfl⟩ := List.cons_prefix_cons.1 hw
  have hr : AfterItems q true ([q] ++ r) := rfl
  refine ⟨rfl, ?_⟩
  rw [List.append_assoc, literalItems_eq hq hi hr]
  simp

theorem longest_literal (hq : q ≠ '\\') (h : (Slice.literalItems q cs).2 = true) :
    Pattern.Longest (literal q) (q :: cs) ((Slice.literalItems q cs).1 + 2) := by
  obtain ⟨hi, hr⟩ := literalItems_spec hq cs
  rw [h] at hr
  obtain ⟨rest, hr⟩ := List.head?_eq_some_iff.1 hr
  refine ⟨?_, ?_, fun w hw hm => ?_⟩
  · have hlen := congrArg List.length hr
    simp only [List.length_drop, List.length_cons] at hlen ⊢
    omega
  · rw [List.take_succ_cons, List.take_add, hr]
    exact matches_literal.2 ⟨_, rfl, hi⟩
  · rw [(literalItems_of_reads hq hw hm).2]
    omega

theorem fails_literal (hq : q ≠ '\\') (h : c = q → (Slice.literalItems q cs).2 = false) :
    Pattern.Fails (literal q) (c :: cs) := by
  intro w hw hm
  obtain ⟨hc, hl⟩ := literalItems_of_reads hq hw hm
  have h := h hc
  rw [hl] at h
  cases h

end Lexeme
end DocLint
