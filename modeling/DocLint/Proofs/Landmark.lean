import DocLint.Proofs.Grouping

/-!
# What an analysis sees of a script

Of the code of a script an analysis sees the kinds of its tokens, without blanks; of a doc comment it sees where it
opens and what it says.  These are the landmarks of a script, in their order.  What a comment documents can be read
off the landmarks around it, so they tell all that is known of the comments of a file.
-/
namespace DocLint

open DocComment (opening closing)

/-- A token of code, or a doc comment with what it says if it is closed. -/
inductive Landmark where
  | code (kind : Kind)
  | comment (line column : Nat) (contents : Option Contents)
  deriving DecidableEq, Repr

/-- A comment of a file: where it opens, how long its opener is, what it documents, and what it says if it is closed. -/
structure Site where
  line : Nat
  column : Nat
  length : Nat
  subject : Subject
  contents : Option Contents
  deriving DecidableEq, Repr

namespace FileView

variable (f : FileView)

def site (o : Nat) : Site where
  line := (f.location o).line
  column := (f.location o).column
  length := (f.location o).length
  subject := f.stream.subject o
  contents := (Block.extract f.stream o).toOption.map Block.contents

/-- The comments of a file, in the order in which they open. -/
def sites : List Site := f.stream.openers.map f.site

end FileView

namespace Landmark

def kind? : Landmark → Option Kind
  | code k => some k
  | comment _ _ _ => none

/-- The comments among some landmarks, if code of the kinds `before` stands before them. -/
def sites (before : List Kind) : List Landmark → List Site
  | [] => []
  | code k :: ls => sites (before ++ [k]) ls
  | comment line column contents :: ls =>
    ⟨line, column, Text.byteLength opening, subjectOf before (ls.filterMap kind?), contents⟩ :: sites before ls

end Landmark

namespace Slice

/-- What is seen of a slice that begins at `p`. -/
def landmark? (p : Position) (s : Slice) : Option Landmark :=
  match s.cls with
  | .token k => if k.isCode then some (.code k) else none
  | .doc => some (.comment p.line p.column (DocComment.contents? s.text))
  | .dropped => none

/-- What is seen of slices, the first of which begins at `p`. -/
def landmarks (p : Position) : List Slice → List Landmark
  | [] => []
  | s :: ss => (s.landmark? p).toList ++ landmarks (p.advance s.text) ss

end Slice

/-! ## Doc tokens are no code -/

theorem Kind.isCode_of_isDoc {k : Kind} (h : k.isDoc = true) : k.isCode = false := by
  simp [isCode, h]

/-- The kinds of code among some tokens. -/
def codeKinds (ts : List Token) : List Kind := (ts.map Token.kind).filter Kind.isCode

@[simp] theorem codeKinds_append (ts us : List Token) : codeKinds (ts ++ us) = codeKinds ts ++ codeKinds us := by
  simp [codeKinds]

theorem codeKinds_eq_nil {ts : List Token} (h : ∀ t ∈ ts, t.kind.isDoc = true) : codeKinds ts = [] := by
  refine List.filter_eq_nil_iff.2 fun k hk => ?_
  obtain ⟨t, ht, rfl⟩ := List.mem_map.1 hk
  simp [Kind.isCode_of_isDoc (h t ht)]

namespace DocComment

/-- The tokens of a comment that begins at `p`. -/
def tokensAt (p : Position) (inner : List Char) : List Token := Piece.place p (pieces (opening ++ inner))

theorem exists_tokensAt (p : Position) (inner : List Char) :
    ∃ ts, tokensAt p inner = Piece.token p ⟨.docOpen, opening⟩ :: ts ∧
      ∀ t ∈ ts, t.kind.isDoc = true ∧ t.kind ≠ .docOpen := by
  obtain ⟨ps, h, hps⟩ := exists_pieces_opening inner
  refine ⟨Piece.place (p.advance opening) ps, by rw [tokensAt, h]; rfl, fun t ht => ?_⟩
  obtain ⟨a, x, b, hx, rfl⟩ := Piece.exists_of_mem_place ht
  exact hps x (by rw [hx]; simp)

theorem codeKinds_tokensAt (p : Position) (inner : List Char) : codeKinds (tokensAt p inner) = [] := by
  obtain ⟨ts, h, hts⟩ := exists_tokensAt p inner
  refine codeKinds_eq_nil fun t ht => ?_
  rw [h] at ht
  cases List.mem_cons.1 ht with
  | inl ht => rw [ht]; rfl
  | inr ht => exact (hts t ht).1

theorem openPositions_tokensAt (i : Nat) (p : Position) (inner : List Char) :
    Stream.openPositions i (tokensAt p inner) = [i] := by
  obtain ⟨ts, h, hts⟩ := exists_tokensAt p inner
  have hopen : (Piece.token p ⟨.docOpen, opening⟩).kind = .docOpen := rfl
  rw [h, Stream.openPositions, if_pos hopen, Stream.openPositions_eq_nil fun t ht => (hts t ht).2]

/-- Whatever stands around a closed comment, its block is read from its own text. -/
theorem extract_tokensAt_closed (p : Position) (body : List Char) (before after : List Token) :
    (Block.extract (.ofTokens (before ++ (tokensAt p (body ++ closing) ++ after))) before.length).toOption.map
      Block.contents = contents? (opening ++ (body ++ closing)) := by
  rw [tokensAt, ← tokens_closedAt, Stream.ClosedComment.extract_ofTokens, contents?_closed, ← contents_closedAt p]
  rfl

theorem extract_tokensAt_unclosed {inner : List Char} (never : ¬ closing <:+: inner) (p : Position)
    (before : List Token) :
    (Block.extract (.ofTokens (before ++ (tokensAt p inner ++ []))) before.length).toOption.map Block.contents =
      contents? (opening ++ inner) := by
  rw [contents?_unclosed never, List.append_nil, tokensAt, pieces_unclosed never, Piece.place,
    Stream.extract_unclosed rfl fun _ hu => ne_of_mem_innerKinds (kind_of_mem_place hu)]
  rfl

end DocComment

/-! ## The comments of a script are those among its landmarks -/

theorem filterMap_kind?_landmarks {ss : List Slice} (h : Slice.Readable ss) (p : Position) :
    (Slice.landmarks p ss).filterMap Landmark.kind? = codeKinds (Slice.layout p ss) := by
  induction h generalizing p with
  | nil => rfl
  | @code k text ss hk _ ih =>
    rw [Slice.layout, codeKinds_append, ← ih, Slice.landmarks, List.filterMap_append]
    by_cases hc : k.isCode = true
    · simp [Slice.landmark?, hc, Landmark.kind?, Slice.pieces, Piece.place, Piece.token, codeKinds]
    · simp [Slice.landmark?, hc, Slice.pieces, Piece.place, Piece.token, codeKinds]
  | dropped _ ih => exact ih _
  | @closed body ss _ ih =>
    have hdoc := DocComment.codeKinds_tokensAt p (body ++ closing)
    rw [DocComment.tokensAt] at hdoc
    rw [Slice.layout, codeKinds_append, Slice.pieces, hdoc, ← ih]
    rfl
  | @unclosed inner never =>
    have hdoc := DocComment.codeKinds_tokensAt p inner
    rw [DocComment.tokensAt] at hdoc
    rw [Slice.layout, codeKinds_append, Slice.pieces, hdoc]
    rfl

/-- Where a comment opens and what it documents depend on the code around it and on its own place. -/
theorem site_tokensAt (path : Path) (p : Position) (inner : List Char) (before after : List Token)
    {contents : Option Contents}
    (hc : (Block.extract (.ofTokens (before ++ (DocComment.tokensAt p inner ++ after))) before.length).toOption.map
      Block.contents = contents) :
    (FileView.mk path (.ofTokens (before ++ (DocComment.tokensAt p inner ++ after)))).site before.length =
      ⟨p.line, p.column, Text.byteLength opening, subjectOf (codeKinds before) (codeKinds after), contents⟩ := by
  have hcode := DocComment.codeKinds_tokensAt p inner
  obtain ⟨ts, h, -⟩ := DocComment.exists_tokensAt p inner
  rw [h] at hc hcode ⊢
  have hlocation : (FileView.mk path
      (.ofTokens (before ++ (Piece.token p ⟨.docOpen, opening⟩ :: ts ++ after)))).location before.length =
        .ofToken? path (some (Piece.token p ⟨.docOpen, opening⟩)) := by
    simp [FileView.location, Stream.ofTokens]
  have hsubject : (Stream.ofTokens
      (before ++ (Piece.token p ⟨.docOpen, opening⟩ :: ts ++ after))).subject before.length =
        subjectOf (codeKinds before) (codeKinds after) := by
    have hkind : (Piece.token p ⟨.docOpen, opening⟩).kind ∉ [Kind.openParen, .openBrace] := by
      simp [Piece.token]
    rw [List.cons_append, Stream.subject_append hkind, ← subjectOf_filter, ← List.cons_append]
    exact congrArg (subjectOf (codeKinds before)) (by rw [← codeKinds, codeKinds_append, hcode, List.nil_append])
  simp only [FileView.site, hlocation, hsubject, hc, Location.ofToken?, Piece.toList_text_token, Piece.start_token]

/-- The comments of some slices, behind other tokens, are those among the landmarks of the slices. -/
theorem map_site_openPositions (path : Path) {ss : List Slice} (h : Slice.Readable ss) (before : List Token)
    (p : Position) :
    (Stream.openPositions before.length (Slice.layout p ss)).map
      (FileView.mk path (.ofTokens (before ++ Slice.layout p ss))).site =
        Landmark.sites (codeKinds before) (Slice.landmarks p ss) := by
  -- The tokens of each slice join those before it, and the rest of the slices comes behind them.
  induction h generalizing before p with
  | nil => rfl
  | @code k text ss hk _ ih =>
    have hopen : (Piece.token p ⟨k, text⟩).kind ≠ .docOpen := by
      intro h
      rw [show k = .docOpen from h] at hk
      cases hk
    have hstep := ih (before ++ [Piece.token p ⟨k, text⟩]) (p.advance text)
    rw [List.length_append, List.length_singleton, List.append_assoc, List.singleton_append, codeKinds_append] at hstep
    have hlayout : Slice.layout p (⟨.token k, text⟩ :: ss) =
        Piece.token p ⟨k, text⟩ :: Slice.layout (p.advance text) ss := rfl
    rw [hlayout, Stream.openPositions, if_neg hopen, hstep, Slice.landmarks]
    by_cases hc : k.isCode = true
    · simp [Slice.landmark?, hc, Landmark.sites, Piece.token, codeKinds]
    · simp [Slice.landmark?, hc, Piece.token, codeKinds]
  | dropped _ ih => exact ih before _
  | @closed body ss rest ih =>
    have hlayout : Slice.layout p (⟨.doc, opening ++ (body ++ closing)⟩ :: ss) =
        DocComment.tokensAt p (body ++ closing) ++ Slice.layout (p.advance (opening ++ (body ++ closing))) ss := rfl
    have hstep := ih (before ++ DocComment.tokensAt p (body ++ closing)) (p.advance (opening ++ (body ++ closing)))
    rw [List.length_append, List.append_assoc, codeKinds_append, DocComment.codeKinds_tokensAt,
      List.append_nil] at hstep
    rw [hlayout, Stream.openPositions_append, DocComment.openPositions_tokensAt, List.map_append, hstep,
      List.map_singleton, site_tokensAt path p _ before _ (DocComment.extract_tokensAt_closed p body before _),
      ← filterMap_kind?_landmarks rest]
    rfl
  | @unclosed inner never =>
    have hlayout : Slice.layout p [⟨.doc, opening ++ inner⟩] = DocComment.tokensAt p inner ++ [] := rfl
    rw [hlayout, Stream.openPositions_append, DocComment.openPositions_tokensAt, List.map_append,
      List.map_singleton, site_tokensAt path p _ before _ (DocComment.extract_tokensAt_unclosed never p before)]
    rfl

/-- The landmarks of a script. -/
def landmarksOf (source : List Char) : List Landmark :=
  Slice.landmarks .start (Slice.ofText (withoutByteOrderMark source))

/-- The comments of a script are those among its landmarks. -/
theorem FileView.sites_ofSource (path : Path) (source : List Char) :
    (FileView.mk path (.ofSource source)).sites = Landmark.sites [] (landmarksOf source) := by
  rw [sites, Stream.ofSource, Stream.openers_ofTokens]
  exact map_site_openPositions path (Slice.readable_ofText (withoutByteOrderMark source)) [] .start

end DocLint
