import DocLint.Proofs.Run
import DocLint.Token.Slice

/-!
# Where comments end

A comment takes what follows its opening through the first `*/`, or everything there is.  `Closes` says so
without counting, and `closeLength` counts exactly that.  From it come the shapes of the three kinds of
comments: to the end of a line, plain, and doc.
-/
namespace DocLint

open DocComment (opening closing)
open Text (stops_dropWhile take_length_takeWhile drop_length_takeWhile)

/-- `ending` is what a comment takes of the text after its opening. -/
inductive Closes (rest : List Char) : List Char → Prop
  | closed (inner after : List Char) (split : rest = inner ++ closing ++ after)
      (first : ¬ closing <:+: inner ++ ['*']) : Closes rest (inner ++ closing)
  | unclosed (never : ¬ closing <:+: rest) : Closes rest rest

theorem closing_infix_cons {c : Char} {cs : List Char} :
    closing <:+: c :: cs ↔ (c = '*' ∧ ∃ ds, cs = '/' :: ds) ∨ closing <:+: cs := by
  rw [List.infix_cons_iff]
  refine or_congr ?_ Iff.rfl
  constructor
  · rintro ⟨ds, hds⟩
    obtain ⟨hc, hcs⟩ := List.cons.inj hds
    exact ⟨hc.symm, ds, hcs.symm⟩
  · rintro ⟨rfl, ds, rfl⟩
    exact ⟨ds, rfl⟩

/-- A step over a character that does not begin the closing. -/
theorem Closes.cons {c : Char} {rest ending : List Char} (hc : ¬ (c = '*' ∧ ∃ ds, rest = '/' :: ds))
    (h : Closes rest ending) : Closes (c :: rest) (c :: ending) := by
  cases h with
  | closed inner after split first =>
    refine .closed (c :: inner) after (by simp [split]) fun hi => ?_
    rcases closing_infix_cons.1 hi with ⟨rfl, ds, hds⟩ | hi
    · cases inner with
      | nil => simp at hds
      | cons d inner =>
        obtain ⟨rfl, -⟩ := List.cons.inj hds
        exact hc ⟨rfl, _, by rw [split]; rfl⟩
    · exact first hi
  | unclosed never =>
    refine .unclosed fun hi => ?_
    rcases closing_infix_cons.1 hi with hi | hi
    · exact hc hi
    · exact never hi

/-- `closeLength` finds the end. -/
theorem closes_take_closeLength (rest : List Char) :
    Closes rest (rest.take (Slice.closeLength rest)) := by
  fun_induction Slice.closeLength rest with
  | case1 cs => exact .closed [] cs rfl (by decide)
  | case2 c cs hc ih =>
    refine ih.cons ?_
    rintro ⟨rfl, ds, rfl⟩
    exact hc ds rfl rfl
  | case3 => exact .unclosed (by decide)

theorem closeLength_closed {inner after : List Char} (first : ¬ closing <:+: inner ++ ['*']) :
    Slice.closeLength (inner ++ closing ++ after) = inner.length + 2 := by
  induction inner with
  | nil => rfl
  | cons c inner ih =>
    rw [List.cons_append, closing_infix_cons, not_or] at first
    rw [List.cons_append, List.cons_append, Slice.closeLength.eq_2, ih first.2, List.length_cons]
    intro ds hc hds
    cases inner with
    | nil => simp [closing] at hds
    | cons d inner => exact first.1 ⟨hc, inner ++ ['*'], by rw [(List.cons.inj hds).1]; rfl⟩

theorem closeLength_unclosed {rest : List Char} (never : ¬ closing <:+: rest) :
    Slice.closeLength rest = rest.length := by
  induction rest with
  | nil => rfl
  | cons c rest ih =>
    rw [closing_infix_cons, not_or] at never
    rw [Slice.closeLength.eq_2, ih never.2, List.length_cons]
    exact fun ds hc hds => never.1 ⟨hc, ds, hds⟩

/-- There is one end. -/
theorem closes_iff {rest ending : List Char} :
    Closes rest ending ↔ ending = rest.take (Slice.closeLength rest) := by
  constructor
  · intro h
    cases h with
    | closed inner after split first =>
      rw [split, closeLength_closed first, List.take_left' (by simp [closing])]
    | unclosed never => rw [closeLength_unclosed never, List.take_length]
  · rintro rfl
    exact closes_take_closeLength rest

/-- A comment to the end of its line, before `after`. -/
def IsLineComment (text after : List Char) : Prop :=
  ∃ body, text = '/' :: '/' :: body ∧ '\n' ∉ body ∧ (after = [] ∨ ∃ rest, after = '\n' :: rest)

/-- A comment between `/*` and `*/` that is no doc comment, before `after`. -/
def IsPlainComment (text after : List Char) : Prop :=
  text = ['/', '*', '*', '/'] ∨
    ∃ inner, text = '/' :: '*' :: inner ∧ inner.head? ≠ some '*' ∧ Closes (inner ++ after) inner

theorem isLineComment_takeWhile (cs : List Char) :
    IsLineComment ('/' :: '/' :: cs.takeWhile (· != '\n')) (cs.dropWhile (· != '\n')) := by
  refine ⟨_, rfl, fun h => ?_, ?_⟩
  · have := List.all_eq_true.1 (List.all_takeWhile (p := (· != '\n')) (l := cs)) _ h
    simp at this
  · have h := stops_dropWhile (· != '\n') cs
    cases hd : cs.dropWhile (· != '\n') with
    | nil => exact .inl rfl
    | cons c rest =>
      rw [hd] at h
      exact .inr ⟨rest, by rw [show c = '\n' by simpa using h]⟩

/-- A text up to where a comment closes, put back together. -/
theorem closes_take_append_drop (cs : List Char) :
    Closes (cs.take (Slice.closeLength cs) ++ cs.drop (Slice.closeLength cs))
      (cs.take (Slice.closeLength cs)) := by
  rw [List.take_append_drop]
  exact closes_take_closeLength cs

/-- What is dropped after a slash is a comment, and no doc comment. -/
theorem isComment_of_dropped {rest : List Char} {n : Nat}
    (h : Slice.measureSlash rest = (.dropped, n)) :
    IsLineComment ('/' :: rest.take n) (rest.drop n) ∨
      IsPlainComment ('/' :: rest.take n) (rest.drop n) := by
  unfold Slice.measureSlash at h
  split at h <;> cases h
  case h_1 cs => simpa using .inl (isLineComment_takeWhile cs)
  case h_2 cs => exact .inr (.inl rfl)
  case h_4 cs _ hs =>
    refine .inr (.inr ⟨_, rfl, ?_, closes_take_append_drop cs⟩)
    cases cs with
    | nil => simp
    | cons c cs => cases hn : Slice.closeLength (c :: cs) <;> simp; rintro rfl; exact hs cs rfl

end DocLint
