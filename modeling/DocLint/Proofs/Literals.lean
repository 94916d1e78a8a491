import DocLint.Proofs.Munch

/-!
# Literals in quotes

A complete literal is a quote, items and the same quote again, where an item is a character or a backslash with any
character behind it.  Such a literal is one token, so that nothing inside it is taken for code, with one exception: a
backslash at the end of a line is not read as an item, and the literal falls apart there.
-/
namespace DocLint

open DocLint.Text
open Pattern (many)
open Slice (ofText)

inductive LiteralItem where
  | plain (c : Char)
  | escape (c : Char)
  deriving DecidableEq, Repr

namespace LiteralItem

def text : LiteralItem → List Char
  | plain c => [c]
  | escape c => ['\\', c]

/-- May an item stand in quotes `q`?  A character may if it is neither the quote nor the backslash, and a line feed only
in backquotes; any character may be escaped. -/
def fits (q : Char) : LiteralItem → Bool
  | plain c => c != q && c != '\\' && (c != '\n' || q == '\x60')
  | escape _ => true

/-- The backslash at the end of a line. -/
def lineContinuation : LiteralItem := escape '\n'

variable {q : Char} {i : LiteralItem} {items : List LiteralItem}

theorem matches_item (hfits : i.fits q = true) (hne : i ≠ lineContinuation) : (Lexeme.item q).Matches i.text := by
  cases i with
  | plain c => exact Lexeme.matches_item.2 (.inl ⟨c, rfl, hfits⟩)
  | escape c =>
    have hc : c ≠ '\n' := fun h => hne (by rw [h]; rfl)
    exact Lexeme.matches_item.2 (.inr ⟨c, rfl, hc⟩)

theorem matches_items (hfits : ∀ i ∈ items, i.fits q = true) (hne : lineContinuation ∉ items) :
    (many (Lexeme.item q)).Matches (items.flatMap text) := by
  induction items with
  | nil => exact .done
  | cons i items ih =>
    obtain ⟨hi, hitems⟩ := List.forall_mem_cons.1 hfits
    have hhead : i ≠ lineContinuation := (List.ne_of_not_mem_cons hne).symm
    exact .more (matches_item hi hhead) (ih hitems (List.not_mem_of_not_mem_cons hne))

end LiteralItem

open LiteralItem (lineContinuation)

/-- A complete literal: its quotes, and the items between them. -/
structure CompleteLiteral where
  quote : Char
  items : List LiteralItem
  isQuote : Slice.isQuote quote = true
  fits : ∀ i ∈ items, i.fits quote = true

namespace CompleteLiteral

variable (l : CompleteLiteral) (rest : List Char)

/-- What stands between the quotes. -/
def body : List Char := l.items.flatMap LiteralItem.text

def text : List Char := l.quote :: (l.body ++ [l.quote])

/-- The token of a literal with which a text begins. -/
def token : Token := ⟨.literal, String.ofList l.text, .start⟩

variable {l}

theorem measure_quote (cs : List Char) : Slice.measure l.quote cs = Slice.measureLiteral l.quote cs := by
  have hq := l.isQuote
  have slash : l.quote ≠ '/' := by
    intro h
    rw [h] at hq
    exact absurd hq (by decide)
  have blank : Slice.isInlineBlank l.quote = false := by
    simp only [Slice.isQuote, Bool.or_eq_true, decide_eq_true_eq] at hq
    rcases hq with (h | h) | h <;> rw [h] <;> decide
  simp [Slice.measure, slash, blank, hq]

/-- A literal in which no line is continued is one slice, whatever follows it. -/
theorem ofText_unbroken (h : lineContinuation ∉ l.items) :
    ofText (l.text ++ rest) = ⟨.token .literal, l.text⟩ :: ofText rest := by
  have hclosed : Lexeme.AfterItems l.quote true (l.quote :: rest) := rfl
  have hitems : Slice.literalItems l.quote (l.body ++ l.quote :: rest) = (l.body.length, true) :=
    Lexeme.literalItems_eq (ne_backslash_of_isQuote l.isQuote) (LiteralItem.matches_items l.fits h) hclosed
  have hmore : l.body ++ l.quote :: rest = (l.body ++ [l.quote]) ++ rest := by simp
  have hlen : l.body.length + 1 = (l.body ++ [l.quote]).length := by simp
  have htext : l.text ++ rest = l.quote :: (l.body ++ l.quote :: rest) := by simp [text]
  rw [htext, Slice.ofText_cons, measure_quote, Slice.measureLiteral, hitems]
  simp only [hlen, hmore, List.take_left, List.drop_left]
  rfl

theorem lex_unbroken (h : lineContinuation ∉ l.items) :
    lex (l.text ++ rest) = l.token :: Slice.layout (Position.start.advance l.text) (ofText rest) := by
  rw [lex, l.ofText_unbroken rest h]
  rfl

/-- A literal in which a line is continued falls apart at the first place where it is: what was read of it is no
literal, and after the end of the line everything is read as code. -/
theorem ofText_broken {a b : List LiteralItem} (hsplit : l.items = a ++ lineContinuation :: b)
    (hfirst : lineContinuation ∉ a) :
    ofText (l.text ++ rest) =
      ⟨.token .other, l.quote :: a.flatMap LiteralItem.text⟩ :: ⟨.token .other, ['\\']⟩ :: ⟨.token .newline, ['\n']⟩ ::
        ofText (b.flatMap LiteralItem.text ++ l.quote :: rest) := by
  have hq := ne_backslash_of_isQuote l.isQuote
  have hfits : ∀ i ∈ a, i.fits l.quote = true := fun i hi => l.fits i (by simp [hsplit, hi])
  generalize htail : b.flatMap LiteralItem.text ++ l.quote :: rest = tail
  have hbody : l.body ++ l.quote :: rest = a.flatMap LiteralItem.text ++ '\\' :: '\n' :: tail := by
    simp [body, hsplit, lineContinuation, LiteralItem.text, ← htail]
  have hstuck : Lexeme.AfterItems l.quote false ('\\' :: '\n' :: tail) := by
    refine ⟨Lexeme.fails_item ?_ ?_, ?_⟩
    · simp [Lexeme.isPlain]
    · intro d r h
      exact (List.cons.inj (List.cons.inj h).2).1.symm
    · simpa using hq.symm
  have hitems := Lexeme.literalItems_eq hq (LiteralItem.matches_items hfits hfirst) hstuck
  have htext : l.text ++ rest = l.quote :: (a.flatMap LiteralItem.text ++ '\\' :: '\n' :: tail) := by
    rw [← hbody]
    simp [text]
  rw [htext, Slice.ofText_cons, measure_quote, Slice.measureLiteral, hitems]
  simp only [List.take_left, List.drop_left]
  rw [Slice.ofText_symbol (by decide), Slice.ofText_symbol (by decide)]
  rfl

end CompleteLiteral

/-- A complete literal is one token exactly if it continues no line, and then it is one, whatever follows. -/
theorem lex_literal_iff (l : CompleteLiteral) (rest : List Char) :
    (lex l.text = [l.token] ↔ lineContinuation ∉ l.items) ∧
    (lineContinuation ∉ l.items →
      lex (l.text ++ rest) = l.token :: Slice.layout (Position.start.advance l.text) (ofText rest)) ∧
    ∀ a b, l.items = a ++ lineContinuation :: b → lineContinuation ∉ a → ofText (l.text ++ rest) =
      ⟨.token .other, l.quote :: a.flatMap LiteralItem.text⟩ :: ⟨.token .other, ['\\']⟩ :: ⟨.token .newline, ['\n']⟩ ::
        ofText (b.flatMap LiteralItem.text ++ l.quote :: rest) := by
  refine ⟨⟨fun hlex hmem => ?_, fun h => ?_⟩, l.lex_unbroken rest, fun a b => l.ofText_broken rest⟩
  · obtain ⟨a, b, hsplit, hfirst⟩ := List.eq_append_cons_of_mem hmem
    have hbroken := l.ofText_broken [] hsplit hfirst
    rw [List.append_nil] at hbroken
    rw [lex, hbroken] at hlex
    cases congrArg Token.kind (List.cons.inj hlex).1
  · have hlex := l.lex_unbroken [] h
    rwa [List.append_nil, ofText] at hlex

/-- A bracket, an escaped quote and the beginning of a comment stay in a literal that continues no line.  Where a line
is continued, the literal is cut at the backslash, and what stands on the next line is code. -/
theorem lex_literal_iff_of_two_literals :
    (∃ l : CompleteLiteral, l.text = "\"(\\\"/*\"".toList ∧ lineContinuation ∉ l.items ∧ lex l.text = [l.token]) ∧
    ∃ l : CompleteLiteral, l.text = "\x27(\\\n)\x27".toList ∧ lineContinuation ∈ l.items ∧ lex l.text ≠ [l.token] ∧
      ofText l.text = [⟨.token .other, "\x27(".toList⟩, ⟨.token .other, ['\\']⟩, ⟨.token .newline, ['\n']⟩,
        ⟨.token .closeParen, [')']⟩, ⟨.token .other, ['\x27']⟩] := by
  constructor
  · refine ⟨⟨'"', [.plain '(', .escape '"', .plain '/', .plain '*'], by decide, by decide⟩, by decide, by decide, ?_⟩
    exact (lex_literal_iff _ []).1.2 (by decide)
  · refine ⟨⟨'\x27', [.plain '(', .escape '\n', .plain ')'], by decide, by decide⟩, by decide, by decide, ?_, ?_⟩
    · intro hlex
      exact absurd ((lex_literal_iff _ []).1.1 hlex) (by decide)
    · have hcut := (lex_literal_iff ⟨'\x27', [.plain '(', .escape '\n', .plain ')'], by decide, by decide⟩ []).2.2
        [.plain '('] [.plain ')'] rfl (by decide)
      rw [List.append_nil] at hcut
      rw [hcut]
      decide +kernel

/-- A continued line lets the bracket behind it out of its literal. -/
theorem lex_continued_literal :
    ∃ l : CompleteLiteral, l.text = "\x27(\\\n)\x27".toList ∧ lineContinuation ∈ l.items ∧
      (lex l.text).map Token.kind = [.other, .other, .newline, .closeParen, .other] :=
  ⟨⟨'\x27', [.plain '(', .escape '\n', .plain ')'], by decide, by decide⟩, by decide, by decide, by decide +kernel⟩

end DocLint
