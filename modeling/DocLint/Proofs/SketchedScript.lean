import Mathlib.Data.Bool.AllAny
import Mathlib.Data.List.Chain
import DocLint.Proofs.Locality
import DocLint.Token.Sketch

/-!
# Sketches stand for scripts

A sketch cuts its code more plainly than a script is cut: it knows neither literals nor numbers nor comments.  On code
without quotes, slashes and numbers both cut alike, and a doc comment is cut by the same rules in both.  So a sketch of
doc comments and such code has the tokens of the script that is its text, places included.
-/
namespace DocLint

open DocLint.Text
open DocComment (opening closing)

theorem Text.takeWhile_eq_of_mem {p q : Char → Bool} {cs : List Char} (h : ∀ c ∈ cs, p c = q c) :
    cs.takeWhile p = cs.takeWhile q := by
  induction cs with
  | nil => rfl
  | cons c cs ih =>
    rw [List.takeWhile_cons, List.takeWhile_cons, h c (by simp), ih fun d hd => h d (List.mem_cons_of_mem c hd)]

namespace Sketch

def Part.text : Part → List Char
  | .doc text => text
  | .docLines lines => docText lines
  | .code text => text
  | .token _ text => text

def Part.isCode : Part → Bool
  | .code _ => true
  | _ => false

/-- A doc comment that ends with the first closing after its opening, and is not the empty comment with something
behind it. -/
def IsComment (text : List Char) : Prop :=
  ∃ inner, text = opening ++ (inner ++ closing) ∧ inner.head? ≠ some '/' ∧ ¬ closing <:+: inner ++ ['*']

/-- Code without quotes, comments and numbers, and without the one blank of ASCII that a script does not take for
one. -/
structure IsPlainCode (text : List Char) : Prop where
  ascii : ∀ c ∈ text, c.toNat < 128
  unquoted : ∀ c ∈ text, Slice.isQuote c = false
  slashless : '/' ∉ text
  blanks : '\x0b' ∉ text
  /-- A digit is never the first character of a word. -/
  words : (' ' :: text).IsChain fun c d => d.isDigit = true → Slice.isWordChar c = true

/-- Parts that a script can hold as they are. -/
def Part.IsFaithful : Part → Prop
  | .doc text => IsComment text
  | .code text => IsPlainCode text
  | _ => False

/-! ## Characters -/

theorem isInlineBlank_eq {c : Char} (h : c.toNat < 128) (hc : c ≠ '\x0b') :
    isInlineBlank c = Slice.isInlineBlank c := by
  have hall : ∀ n < 128, Char.ofNat n ≠ '\x0b' → isInlineBlank (Char.ofNat n) = Slice.isInlineBlank (Char.ofNat n) := by
    decide +kernel
  have hn := hall c.toNat h
  rw [Char.ofNat_toNat] at hn
  exact hn hc

theorem isWordChar_eq {c : Char} (h : c.toNat < 128) : isWordChar c = Slice.isWordChar c := by
  rw [isWordChar, isAlphanumeric, if_pos h]
  rfl

theorem symbolKind_eq (c : Char) : symbolKind c = Slice.symbolKind c := by
  unfold symbolKind Slice.symbolKind
  split <;> simp only [*]

/-- A word that does not begin with a digit has the same kind in both. -/
theorem wordKind_eq {c : Char} (h : c.isDigit = false) (word : List Char) :
    wordKind (c :: word) = Slice.wordKind (c :: word) := by
  unfold wordKind Slice.wordKind
  split
  · rfl
  · split
    · rfl
    · exact if_neg (Bool.eq_false_iff.1 h)

/-! ## Code -/

section Code

variable {c : Char} {cs rest : List Char}

theorem IsPlainCode.not_isDigit (h : IsPlainCode (c :: cs)) : c.isDigit = false := by
  rw [Bool.eq_false_iff]
  intro hd
  exact absurd ((List.isChain_cons_cons.1 h.words).1 hd) (by decide)

/-- The first piece of a sketch is the first slice of a script. -/
theorem IsPlainCode.measure_append (h : IsPlainCode (c :: cs)) (hword : Stops Slice.isWordChar rest)
    (hblank : Stops Slice.isInlineBlank rest) :
    Slice.measure c (cs ++ rest) = (.token (measure c cs).1, (measure c cs).2) := by
  have hne : ∀ d ∈ c :: cs, d ≠ '\x0b' := fun d hd he => h.blanks (he ▸ hd)
  have hrun : ∀ d ∈ cs, d ∈ c :: cs := fun d hd => List.mem_cons_of_mem c hd
  have hblanks : cs.takeWhile isInlineBlank = (cs ++ rest).takeWhile Slice.isInlineBlank := by
    rw [takeWhile_append_stops hblank]
    exact takeWhile_eq_of_mem fun d hd => isInlineBlank_eq (h.ascii d (hrun d hd)) (hne d (hrun d hd))
  have hwords : cs.takeWhile isWordChar = (cs ++ rest).takeWhile Slice.isWordChar := by
    rw [takeWhile_append_stops hword]
    exact takeWhile_eq_of_mem fun d hd => isWordChar_eq (h.ascii d (hrun d hd))
  have hslash : c ≠ '/' := fun he => h.slashless (by simp [he])
  have hquote : Slice.isQuote c = false := h.unquoted c (by simp)
  rw [measure, isInlineBlank_eq (h.ascii c (by simp)) (hne c (by simp)), isWordChar_eq (h.ascii c (by simp)), hblanks,
    hwords]
  by_cases hb : Slice.isInlineBlank c = true
  · simp [Slice.measure, hslash, hb]
  · by_cases hw : Slice.isWordChar c = true
    · have hstart : Slice.isWordStart c = true := by
        rw [Slice.isWordChar, Char.isAlphanum, h.not_isDigit, Bool.or_false] at hw
        exact hw
      rw [Slice.measure_of_isWordStart hstart, if_neg hb, if_pos hw]
      dsimp only
      rw [wordKind_eq h.not_isDigit]
    · have hstart : Slice.isWordStart c = false := by
        rw [Bool.eq_false_iff]
        exact fun hs => hw (Slice.isWordChar_of_isWordStart hs)
      simp [Slice.measure, hslash, hb, hquote, h.not_isDigit, hstart, hw, symbolKind_eq]

theorem measure_le (c : Char) (cs : List Char) : (measure c cs).2 ≤ cs.length := by
  unfold measure
  split
  · exact (List.takeWhile_prefix _).length_le
  · split
    · exact (List.takeWhile_prefix _).length_le
    · exact Nat.zero_le _

/-- Either the first piece is no word, or no word goes on behind it. -/
theorem IsPlainCode.measure_cases (h : IsPlainCode (c :: cs)) :
    (∀ d ∈ c :: cs.take (measure c cs).2, Slice.isWordChar d = false) ∨
      Stops Slice.isWordChar (cs.drop (measure c cs).2) := by
  have hascii : ∀ d ∈ cs, d.toNat < 128 := fun d hd => h.ascii d (List.mem_cons_of_mem c hd)
  unfold measure
  split
  · next hb =>
    refine .inl fun d hd => ?_
    have hd' : d ∈ c :: cs ∧ isInlineBlank d = true := by
      rw [take_length_takeWhile] at hd
      cases List.mem_cons.1 hd with
      | inl hd => rw [hd]; exact ⟨by simp, hb⟩
      | inr hd =>
        exact ⟨List.mem_cons_of_mem c ((List.takeWhile_prefix _).subset hd), List.all_eq_true.1 List.all_takeWhile d hd⟩
    rw [isInlineBlank_eq (h.ascii d hd'.1) fun he => h.blanks (he ▸ hd'.1)] at hd'
    obtain ⟨-, hd⟩ := hd'
    simp only [Slice.isInlineBlank, Bool.or_eq_true, decide_eq_true_eq] at hd
    rcases hd with ((rfl | rfl) | rfl) | rfl <;> decide
  · split
    · next hw =>
      refine .inr ?_
      rw [takeWhile_eq_of_mem fun d hd => isWordChar_eq (hascii d hd), drop_length_takeWhile]
      exact stops_dropWhile _ _
    · next hw =>
      refine .inl fun d hd => ?_
      rw [List.take_zero, List.mem_singleton] at hd
      rw [hd, ← isWordChar_eq (h.ascii c (by simp))]
      exact Bool.eq_false_iff.2 hw

/-- What follows the first piece is plain code again. -/
theorem IsPlainCode.drop (h : IsPlainCode (c :: cs)) : IsPlainCode (cs.drop (measure c cs).2) := by
  have hsub : ∀ d ∈ cs.drop (measure c cs).2, d ∈ c :: cs :=
    fun d hd => List.mem_cons_of_mem c (List.mem_of_mem_drop hd)
  refine ⟨fun d hd => h.ascii d (hsub d hd), fun d hd => h.unquoted d (hsub d hd), fun hd => h.slashless (hsub _ hd),
    fun hd => h.blanks (hsub _ hd), ?_⟩
  have hchain := (List.isChain_cons.1 h.words).2
  rw [← List.take_append_drop (measure c cs).2 cs, ← List.cons_append, List.isChain_append] at hchain
  obtain ⟨-, hrest, hjoin⟩ := hchain
  refine List.isChain_cons.2 ⟨fun d hd hdigit => ?_, hrest⟩
  cases h.measure_cases with
  | inl hpiece =>
    obtain ⟨x, hx⟩ : ∃ x, x ∈ (c :: cs.take (measure c cs).2).getLast? := by simp [List.getLast?_cons]
    have hword := hjoin x hx d hd hdigit
    rw [hpiece x (List.mem_of_getLast? hx)] at hword
    cases hword
  | inr hstops =>
    have hword : Slice.isWordChar d = true := by simp [Slice.isWordChar, Char.isAlphanum, hdigit]
    rw [hstops d hd] at hword
    cases hword

/-- A piece as a slice of a script. -/
def slice (p : Piece) : Slice := ⟨.token p.kind, p.text⟩

/-- Plain code in a script is cut as in a sketch, if what follows does not go on with its last piece. -/
theorem IsPlainCode.ofText_append {text : List Char} (h : IsPlainCode text) (hword : Stops Slice.isWordChar rest)
    (hblank : Stops Slice.isInlineBlank rest) :
    Slice.ofText (text ++ rest) = (codePieces text).map slice ++ Slice.ofText rest := by
  -- Along the pieces of the sketch: each is the first slice of what is left, and plain code is left behind it.
  fun_induction codePieces text with
  | case1 => rfl
  | case2 c cs kind n hm ih =>
    have hrest := h.drop
    have hmeasure := h.measure_append hword hblank
    have hle := measure_le c cs
    rw [hm] at hrest hmeasure hle
    rw [List.cons_append, Slice.ofText_cons, hmeasure, List.take_append_of_le_length hle,
      List.drop_append_of_le_length hle, ih hrest]
    rfl

end Code

/-! ## Parts -/

/-- The slices of a part. -/
def Part.slices : Part → List Slice
  | .doc text => [⟨.doc, text⟩]
  | p => p.pieces.map slice

/-- A doc comment goes on with neither a word nor a blank. -/
theorem IsComment.stops {text : List Char} (h : IsComment text) (rest : List Char) :
    Stops Slice.isWordChar (text ++ rest) ∧ Stops Slice.isInlineBlank (text ++ rest) := by
  obtain ⟨inner, rfl, -⟩ := h
  constructor <;> exact stops_cons.2 (by decide)

/-- A script that is put together from parts is cut into the slices of the parts. -/
theorem ofText_flatMap {parts : List Part} (h : ∀ p ∈ parts, p.IsFaithful)
    (hcode : parts.IsChain fun p q => p.isCode = true → q.isCode = false) :
    Slice.ofText (parts.flatMap Part.text) = parts.flatMap Part.slices := by
  induction parts with
  | nil => exact Slice.ofText.eq_1
  | cons p parts ih =>
    have hp := h p (by simp)
    have hlater : ∀ q ∈ parts, q.IsFaithful := fun q hq => h q (List.mem_cons_of_mem p hq)
    obtain ⟨hnext, hchain⟩ := List.isChain_cons.1 hcode
    rw [List.flatMap_cons, List.flatMap_cons, ← ih hlater hchain]
    cases p with
    | doc text =>
      obtain ⟨inner, rfl, hslash, hclose⟩ := hp
      exact Slice.ofText_doc hclose hslash
    | code text =>
      have hstops : Stops Slice.isWordChar (parts.flatMap Part.text) ∧
          Stops Slice.isInlineBlank (parts.flatMap Part.text) := by
        cases parts with
        | nil => exact ⟨stops_nil, stops_nil⟩
        | cons q parts =>
          have hq := hlater q (by simp)
          have hdoc := hnext q rfl rfl
          cases q with
          | doc text => exact IsComment.stops hq _
          | code => cases hdoc
          | docLines => cases hq
          | token => cases hq
      exact IsPlainCode.ofText_append hp hstops.1 hstops.2
    | docLines => cases hp
    | token => cases hp

theorem flatMap_pieces_slices {p : Part} (h : p.IsFaithful) : p.slices.flatMap Slice.pieces = p.pieces := by
  cases p with
  | doc text => exact List.append_nil _
  | code text =>
    show ((codePieces text).map slice).flatMap Slice.pieces = codePieces text
    rw [List.flatMap_map]
    exact List.flatMap_singleton' _
  | docLines => cases h
  | token => cases h

theorem cls_slices {p : Part} {s : Slice} (hs : s ∈ p.slices) : s.cls ≠ .dropped := by
  cases p with
  | doc text =>
    rw [List.mem_singleton.1 hs]
    exact SliceClass.noConfusion
  | code text | docLines text | token k text =>
    obtain ⟨piece, -, rfl⟩ := List.mem_map.1 hs
    exact SliceClass.noConfusion

end Sketch

/-- Slices of which none is dropped are laid out piece by piece. -/
theorem Slice.layout_eq_place {ss : List Slice} (h : ∀ s ∈ ss, s.cls ≠ .dropped) (p : Position) :
    layout p ss = Piece.place p (ss.flatMap pieces) := by
  induction ss generalizing p with
  | nil => rfl
  | cons s ss ih =>
    rw [layout, List.flatMap_cons, Piece.place_append, textOf_pieces (h s (by simp)),
      ih fun t ht => h t (List.mem_cons_of_mem s ht)]

/-- A sketch of doc comments and plain code, with no two parts of code side by side, has the tokens of its text. -/
theorem tokens_sketch_eq_lex {parts : List Sketch.Part} (h : ∀ p ∈ parts, p.IsFaithful)
    (hcode : parts.IsChain fun p q => p.isCode = true → q.isCode = false) :
    Sketch.tokens parts = lex (parts.flatMap Sketch.Part.text) := by
  have hkept : ∀ s ∈ parts.flatMap Sketch.Part.slices, s.cls ≠ .dropped := by
    intro s hs
    obtain ⟨p, -, hs⟩ := List.mem_flatMap.1 hs
    exact Sketch.cls_slices hs
  have hpieces : (parts.flatMap Sketch.Part.slices).flatMap Slice.pieces = parts.flatMap Sketch.Part.pieces := by
    rw [List.flatMap_assoc]
    exact List.flatMap_congr fun p hp => Sketch.flatMap_pieces_slices (h p hp)
  rw [lex, Sketch.ofText_flatMap h hcode, Slice.layout_eq_place hkept, hpieces, Sketch.tokens]

/-- Digits inside a word, a tab, and a comment of three stars right behind code. -/
theorem tokens_sketch_eq_lex_of_three_parts :
    ∃ parts : List Sketch.Part, parts = [.doc "/** a\n * @b c */".toList,
        .code "\nclass $x1 \x7b\tf(,a2) \x7d\r\n".toList, .doc "/***/".toList] ∧
      (∀ p ∈ parts, p.IsFaithful) ∧ (parts.IsChain fun p q => p.isCode = true → q.isCode = false) ∧
      parts.flatMap Sketch.Part.text = "/** a\n * @b c */\nclass $x1 \x7b\tf(,a2) \x7d\r\n/***/".toList ∧
      Sketch.tokens parts = lex (parts.flatMap Sketch.Part.text) := by
  have hfirst : Sketch.IsComment "/** a\n * @b c */".toList :=
    ⟨" a\n * @b c ".toList, by decide +kernel, by decide +kernel, by decide +kernel⟩
  -- Checked along the text: over all characters, the first two conditions are out of reach.
  have hplain : Sketch.IsPlainCode "\nclass $x1 \x7b\tf(,a2) \x7d\r\n".toList :=
    ⟨List.all_iff_forall_prop.1 (by decide +kernel), List.all_iff_forall_prop.1 (by decide +kernel), by decide +kernel,
      by decide +kernel, by decide +kernel⟩
  have hlast : Sketch.IsComment "/***/".toList := ⟨[], by decide +kernel, by decide +kernel, by decide +kernel⟩
  have hall : ∀ p ∈ [Sketch.Part.doc "/** a\n * @b c */".toList,
      .code "\nclass $x1 \x7b\tf(,a2) \x7d\r\n".toList, .doc "/***/".toList], p.IsFaithful :=
    List.forall_mem_cons.2 ⟨hfirst, List.forall_mem_cons.2 ⟨hplain, List.forall_mem_singleton.2 hlast⟩⟩
  have hcode : [Sketch.Part.doc "/** a\n * @b c */".toList,
      .code "\nclass $x1 \x7b\tf(,a2) \x7d\r\n".toList, .doc "/***/".toList].IsChain
        fun p q => p.isCode = true → q.isCode = false := by decide +kernel
  exact ⟨_, rfl, hall, hcode, by decide +kernel, tokens_sketch_eq_lex hall hcode⟩

end DocLint
