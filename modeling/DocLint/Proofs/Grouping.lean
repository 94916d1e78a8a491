import DocLint.Proofs.Contents
import DocLint.Proofs.DocLines

/-!
# Code and comments

A script is code and doc comments, one after another.  A doc comment is one run of tokens from its opener to its
closer; only the last one may lack the closer, and then it is all that is left of the script.  The index finds
exactly these comments: each opener, the block of a closed comment, and no block for one that is left open.
-/
namespace DocLint

open DocLint.Text
open DocComment (opening closing innerKinds)

/-! ## Openers -/

namespace Stream

/-- The positions of the tokens that open a doc comment, if the first token has position `i`. -/
def openPositions (i : Nat) : List Token → List Nat
  | [] => []
  | t :: ts => if t.kind = .docOpen then i :: openPositions (i + 1) ts else openPositions (i + 1) ts

theorem openPositions_append (i : Nat) (ts us : List Token) :
    openPositions i (ts ++ us) = openPositions i ts ++ openPositions (i + ts.length) us := by
  induction ts generalizing i with
  | nil => rfl
  | cons t ts ih =>
    have next : i + (t :: ts).length = i + 1 + ts.length := by rw [List.length_cons]; omega
    rw [next, List.cons_append, openPositions, openPositions, ih]
    split <;> rfl

theorem openPositions_eq_nil {ts : List Token} (h : ∀ t ∈ ts, t.kind ≠ .docOpen) (i : Nat) :
    openPositions i ts = [] := by
  induction ts generalizing i with
  | nil => rfl
  | cons t ts ih =>
    rw [openPositions, if_neg (h t (by simp)), ih fun u hu => h u (List.mem_cons_of_mem t hu)]

theorem le_of_mem_openPositions {i o : Nat} {ts : List Token} (h : o ∈ openPositions i ts) : i ≤ o := by
  induction ts generalizing i with
  | nil => cases h
  | cons t ts ih =>
    rw [openPositions] at h
    split at h
    · cases h with
      | head => exact Nat.le_refl _
      | tail _ h => exact Nat.le_of_succ_le (ih h)
    · exact Nat.le_of_succ_le (ih h)

theorem nodup_openPositions (i : Nat) (ts : List Token) : (openPositions i ts).Nodup := by
  induction ts generalizing i with
  | nil => exact .nil
  | cons t ts ih =>
    rw [openPositions]
    split
    · exact List.nodup_cons.2 ⟨fun h => Nat.not_succ_le_self i (le_of_mem_openPositions h), ih (i + 1)⟩
    · exact ih (i + 1)

/-- Every opener has its entry, after the comment that is open at the beginning. -/
theorem map_opener_commentsFrom (i : Nat) (current : Option CommentEntry) (ts : List Token) :
    (commentsFrom i current ts).map CommentEntry.opener =
      current.toList.map CommentEntry.opener ++ openPositions i ts := by
  induction ts generalizing i current with
  | nil => simp [commentsFrom, openPositions]
  | cons t ts ih =>
    rcases commentKind_cases t.kind with hk | hk | hk | hk
    · rw [commentsFrom_open hk, List.map_append, ih, openPositions, if_pos hk]
      rfl
    · rw [commentsFrom_tag hk, ih, openPositions, if_neg (by simp [hk])]
      cases current <;> rfl
    · rw [commentsFrom_close hk, List.map_append, ih, openPositions, if_neg (by simp [hk])]
      cases current <;> rfl
    · have hopen : t.kind ≠ .docOpen := by
        intro h
        rw [h] at hk
        cases hk
      rw [commentsFrom_passed hk, ih, openPositions, if_neg hopen]

theorem openers_ofTokens (ts : List Token) : (ofTokens ts).openers = openPositions 0 ts :=
  map_opener_commentsFrom 0 none ts

/-- There is no block for a comment that runs to the end. -/
theorem extract_unclosed {t : Token} {inner : List Token} (ht : t.kind = .docOpen)
    (hinner : ∀ u ∈ inner, u.kind ≠ .docOpen ∧ u.kind ≠ .docClose) (before : List Token) :
    Block.extract (ofTokens (before ++ t :: inner)) before.length = .error ⟨before.length⟩ := by
  have hlast := @commentsFrom_inner (before.length + 1) inner hinner ⟨before.length, none, []⟩ []
  rw [List.append_nil] at hlast
  have hcloser : (ofTokens (before ++ t :: inner)).closer? before.length = none := by
    rw [closer?, comment?_opening ht, hlast]
    simp [commentsFrom]
  rw [Block.extract, hcloser]

end Stream

/-! ## The pieces of a comment -/

namespace DocComment

theorem kind_bodyPieces {body : List Char} {p : Piece} (h : p ∈ bodyPieces body) : p.kind ∈ innerKinds := by
  unfold bodyPieces at h
  split at h
  · cases h
  · cases List.mem_append.1 h with
    | inl h => exact kind_linePieces h
    | inr h =>
      obtain ⟨l, -, h⟩ := List.mem_flatMap.1 h
      cases List.mem_cons.1 h with
      | inl h => rw [h]; simp [innerKinds]
      | inr h => exact kind_linePieces h

theorem pieces_closed (body : List Char) :
    pieces (opening ++ (body ++ closing)) = ⟨.docOpen, opening⟩ :: (bodyPieces body ++ [⟨.docClose, closing⟩]) := by
  rw [pieces, dropStart?_append]
  simp only [bodyOf, dropEnd?_append]
  rfl

theorem dropEnd?_closing_eq_none {rest : List Char} (never : ¬ closing <:+: rest) : dropEnd? closing rest = none := by
  rw [← Option.not_isSome_iff_eq_none, Option.isSome_iff_exists]
  rintro ⟨body, h⟩
  rw [eq_append_of_dropEnd? h] at never
  exact never (List.suffix_append body closing).isInfix

theorem pieces_unclosed {rest : List Char} (never : ¬ closing <:+: rest) :
    pieces (opening ++ rest) = ⟨.docOpen, opening⟩ :: bodyPieces rest := by
  rw [pieces, dropStart?_append]
  simp only [bodyOf, dropEnd?_closing_eq_none never]
  simp

/-- A comment is its opener and other doc tokens. -/
theorem exists_pieces_opening (inner : List Char) :
    ∃ ps, pieces (opening ++ inner) = ⟨.docOpen, opening⟩ :: ps ∧
      ∀ x ∈ ps, x.kind.isDoc = true ∧ x.kind ≠ .docOpen := by
  have hbody : ∀ {body : List Char} {x : Piece}, x ∈ bodyPieces body → x.kind.isDoc = true ∧ x.kind ≠ .docOpen := by
    intro body x hx
    have within : ∀ k ∈ innerKinds, k.isDoc = true ∧ k ≠ .docOpen := by decide
    exact within x.kind (kind_bodyPieces hx)
  rw [pieces, dropStart?_append]
  refine ⟨_, rfl, fun x hx => ?_⟩
  cases List.mem_append.1 hx with
  | inl hx => exact hbody hx
  | inr hx =>
    split at hx
    · rw [List.mem_singleton.1 hx]
      exact ⟨rfl, by decide⟩
    · cases hx

/-- What a comment says, if it is closed. -/
def contents? (text : List Char) : Option Contents :=
  ((dropStart? opening text).bind (dropEnd? closing)).map fun body => .ofPieces (bodyPieces body)

theorem contents?_closed (body : List Char) :
    contents? (opening ++ (body ++ closing)) = some (.ofPieces (bodyPieces body)) := by
  rw [contents?, dropStart?_append, Option.bind_some, dropEnd?_append, Option.map_some]

theorem contents?_unclosed {rest : List Char} (never : ¬ closing <:+: rest) : contents? (opening ++ rest) = none := by
  rw [contents?, dropStart?_append, Option.bind_some, dropEnd?_closing_eq_none never, Option.map_none]

theorem kind_of_mem_place {p : Position} {body : List Char} {u : Token} (h : u ∈ Piece.place p (bodyPieces body)) :
    u.kind ∈ innerKinds := by
  obtain ⟨a, x, b, hx, rfl⟩ := Piece.exists_of_mem_place h
  exact kind_bodyPieces (by rw [hx]; simp)

theorem ne_of_mem_innerKinds {k : Kind} (h : k ∈ innerKinds) : k ≠ .docOpen ∧ k ≠ .docClose := by
  constructor
  · rintro rfl
    exact absurd h (by decide)
  · rintro rfl
    exact absurd h (by decide)

/-- The tokens of a closed comment that begins at `p`. -/
def closedAt (p : Position) (body : List Char) : Stream.ClosedComment where
  opening := Piece.token p ⟨.docOpen, opening⟩
  inner := Piece.place (p.advance opening) (bodyPieces body)
  closing := Piece.token ((p.advance opening).advance (Piece.textOf (bodyPieces body))) ⟨.docClose, closing⟩
  opens := Piece.kind_token p _
  within _ hu := ne_of_mem_innerKinds (kind_of_mem_place hu)
  closes := Piece.kind_token _ _

theorem tokens_closedAt (p : Position) (body : List Char) :
    (closedAt p body).tokens = Piece.place p (pieces (opening ++ (body ++ closing))) := by
  rw [pieces_closed, Piece.place, Piece.place_append]
  rfl

theorem contents_closedAt (p : Position) (body : List Char) (o : Nat) :
    ((closedAt p body).block o).contents = .ofPieces (bodyPieces body) := by
  rw [Stream.ClosedComment.contents_block, closedAt, Piece.map_piece_place]

end DocComment

/-! ## The slices of a script -/

namespace Slice

/-- Slices as a script has them: tokens of code, comments that are dropped, and doc comments.  A doc comment that is
never closed is the last slice. -/
inductive Readable : List Slice → Prop
  | nil : Readable []
  | code {k : Kind} {text : List Char} {ss : List Slice} (hk : k.isDoc = false) (rest : Readable ss) :
      Readable (⟨.token k, text⟩ :: ss)
  | dropped {text : List Char} {ss : List Slice} (rest : Readable ss) : Readable (⟨.dropped, text⟩ :: ss)
  | closed {body : List Char} {ss : List Slice} (rest : Readable ss) :
      Readable (⟨.doc, opening ++ (body ++ closing)⟩ :: ss)
  | unclosed {inner : List Char} (never : ¬ closing <:+: inner) : Readable [⟨.doc, opening ++ inner⟩]

theorem isDoc_wordKind (word : List Char) : (wordKind word).isDoc = false := by
  unfold wordKind
  split
  · rfl
  · split <;> rfl

theorem isDoc_symbolKind (c : Char) : (symbolKind c).isDoc = false := by
  unfold symbolKind
  split <;> rfl

/-- A token that is cut from a script is no part of a doc comment. -/
theorem isDoc_of_measure {c : Char} {rest : List Char} {k : Kind} (h : (measure c rest).1 = .token k) :
    k.isDoc = false := by
  unfold measure at h
  split at h
  · unfold measureSlash at h
    split at h <;> cases h
    rfl
  · split at h
    · cases h
      rfl
    · split at h
      · unfold measureLiteral at h
        split at h <;> cases h <;> rfl
      · split at h
        · cases h
          rfl
        · split at h
          · cases h
            exact isDoc_wordKind _
          · cases h
            exact isDoc_symbolKind c

/-- A doc comment begins with its opening, and takes what it has to close. -/
theorem exists_of_measure_doc {c : Char} {rest : List Char} (h : (measure c rest).1 = .doc) :
    ∃ inner, c = '/' ∧ rest = '*' :: '*' :: inner ∧ (measure c rest).2 = closeLength inner + 2 := by
  have hkind : ∀ k, (measure c rest).1 ≠ .token k := by simp [h]
  obtain ⟨rfl, hm⟩ := measure_eq_measureSlash hkind
  rw [hm] at h ⊢
  unfold measureSlash at h ⊢
  split at h <;> cases h
  next inner _ => exact ⟨inner, rfl, rfl, rfl⟩

theorem readable_ofText (cs : List Char) : Readable (ofText cs) := by
  fun_induction ofText cs with
  | case1 => exact .nil
  | case2 c cs cls n hm ih =>
    cases cls with
    | token k => exact .code (isDoc_of_measure (by rw [hm])) ih
    | dropped => exact .dropped ih
    | doc =>
      have hdoc : (measure c cs).1 = .doc := by rw [hm]
      obtain ⟨inner, rfl, rfl, hn⟩ := exists_of_measure_doc hdoc
      rw [hm] at hn
      obtain rfl : n = closeLength inner + 2 := hn
      have hclose := closes_take_closeLength inner
      rw [List.drop_succ_cons, List.drop_succ_cons] at ih ⊢
      rw [List.take_succ_cons, List.take_succ_cons]
      generalize hend : inner.take (closeLength inner) = ending at hclose ⊢
      cases hclose with
      | closed body after split first => exact .closed ih
      | unclosed never =>
        have hdrop := List.take_append_drop (closeLength inner) inner
        rw [hend, List.append_right_eq_self] at hdrop
        rw [hdrop, ofText]
        exact .unclosed never

end Slice

/-- Tokens as a script has them: code, and doc comments from their opener to their closer, with nothing but marks,
blanks, line feeds, texts and tags between.  The last comment may run to the end. -/
inductive Grouped : List Token → Prop
  | nil : Grouped []
  | code {t : Token} {ts : List Token} (kind : t.kind.isDoc = false) (rest : Grouped ts) : Grouped (t :: ts)
  | closed {opener closer : Token} {inner ts : List Token} (opens : opener.kind = .docOpen)
      (within : ∀ u ∈ inner, u.kind ∈ innerKinds) (closes : closer.kind = .docClose) (rest : Grouped ts) :
      Grouped (opener :: (inner ++ closer :: ts))
  | unclosed {opener : Token} {inner : List Token} (opens : opener.kind = .docOpen)
      (within : ∀ u ∈ inner, u.kind ∈ innerKinds) : Grouped (opener :: inner)

theorem Slice.Readable.grouped {ss : List Slice} (h : Readable ss) (p : Position) : Grouped (layout p ss) := by
  induction h generalizing p with
  | nil => exact .nil
  | code hk _ ih => exact .code hk (ih _)
  | dropped _ ih => exact ih _
  | @closed body ss _ ih =>
    rw [layout, pieces, ← DocComment.tokens_closedAt, Stream.ClosedComment.tokens, List.cons_append, List.append_assoc]
    exact .closed rfl (fun _ hu => DocComment.kind_of_mem_place hu) rfl (ih _)
  | unclosed never =>
    rw [layout, pieces, DocComment.pieces_unclosed never, layout, List.append_nil]
    exact .unclosed rfl fun _ hu => DocComment.kind_of_mem_place hu

end DocLint
