import DocLint.Proofs.Locality
import DocLint.Proofs.SameFindings

/-!
# Line endings

A carriage return before every line feed is blank wherever it lands: at the end of a line of a doc comment, in a
comment that is dropped, in a literal, or between tokens.  Only behind a backslash it would change what a literal
holds.  So scripts with either line ending have the same landmarks, and the same report up to byte offsets.
-/
namespace DocLint

open DocLint.Text
open DocComment (opening closing)

namespace Text

/-- A text with a carriage return before every line feed. -/
def crlf (cs : List Char) : List Char := cs.flatMap fun c => if c = '\n' then ['\r', '\n'] else [c]

variable {cs : List Char} {c : Char}

@[simp] theorem crlf_nil : crlf [] = [] := rfl

@[simp] theorem crlf_append (a b : List Char) : crlf (a ++ b) = crlf a ++ crlf b := by
  simp [crlf]

@[simp] theorem crlf_feed (cs : List Char) : crlf ('\n' :: cs) = '\r' :: '\n' :: crlf cs := rfl

theorem crlf_cons (hc : c ≠ '\n') (cs : List Char) : crlf (c :: cs) = c :: crlf cs := by
  simp [crlf, hc]

theorem crlf_of_notMem (h : '\n' ∉ cs) : crlf cs = cs := by
  induction cs with
  | nil => rfl
  | cons c cs ih =>
    have hc : c ≠ '\n' := fun hc => h (by simp [hc])
    rw [crlf_cons hc, ih fun hcs => h (List.mem_cons_of_mem c hcs)]

theorem head?_crlf (hr : c ≠ '\r') (hn : c ≠ '\n') : (crlf cs).head? = some c ↔ cs.head? = some c := by
  cases cs with
  | nil => rfl
  | cons d cs =>
    by_cases hd : d = '\n'
    · subst hd
      simp [hr.symm, hn.symm]
    · rw [crlf_cons hd]
      rfl

/-- A run of a class without line ends is the same run. -/
theorem takeWhile_crlf {p : Char → Bool} (hr : p '\r' = false) (hn : p '\n' = false) (cs : List Char) :
    (crlf cs).takeWhile p = cs.takeWhile p := by
  induction cs with
  | nil => rfl
  | cons c cs ih =>
    by_cases hc : c = '\n'
    · subst hc
      simp [hr, hn]
    · rw [crlf_cons hc, List.takeWhile_cons, List.takeWhile_cons, ih]

theorem Stops.crlf {p : Char → Bool} (hr : p '\r' = false) (h : Stops p cs) : Stops p (crlf cs) := by
  cases cs with
  | nil => exact stops_nil
  | cons c cs =>
    by_cases hc : c = '\n'
    · subst hc
      exact stops_cons.2 hr
    · rw [crlf_cons hc]
      exact stops_cons.2 (stops_cons.1 h)

theorem notMem_takeWhile {p : Char → Bool} (hn : p '\n' = false) (cs : List Char) : '\n' ∉ cs.takeWhile p := by
  intro h
  have := List.all_eq_true.1 (List.all_takeWhile (p := p) (l := cs)) _ h
  rw [hn] at this
  cases this

theorem dropStart?_crlf {start : List Char} (h : ∀ c ∈ start, c ≠ '\r' ∧ c ≠ '\n') (cs : List Char) :
    dropStart? start (crlf cs) = (dropStart? start cs).map crlf := by
  induction start generalizing cs with
  | nil => rfl
  | cons s start ih =>
    obtain ⟨hr, hn⟩ := h s (by simp)
    have hrest : ∀ c ∈ start, c ≠ '\r' ∧ c ≠ '\n' := fun c hc => h c (List.mem_cons_of_mem s hc)
    cases cs with
    | nil => rfl
    | cons c cs =>
      by_cases hc : c = '\n'
      · subst hc
        simp [dropStart?, hr, hn]
      · rw [crlf_cons hc, dropStart?, dropStart?, ih hrest]
        split <;> rfl

theorem exists_of_crlf_concat {r : List Char} (hc : c ≠ '\n') (h : crlf cs = r ++ [c]) :
    ∃ bs, cs = bs ++ [c] ∧ crlf bs = r := by
  rcases List.eq_nil_or_concat cs with rfl | ⟨bs, d, rfl⟩
  · simp at h
  · rw [List.concat_eq_append, crlf_append] at h
    by_cases hd : d = '\n'
    · subst hd
      have hlast := congrArg List.getLast? h
      simp only [crlf_feed, crlf_nil, List.getLast?_append, List.getLast?_singleton] at hlast
      simp at hlast
      exact absurd hlast.symm hc
    · rw [crlf_cons hd, crlf_nil] at h
      obtain ⟨hbs, hdc⟩ := List.append_inj' h rfl
      exact ⟨bs, by simp [List.singleton_inj.1 hdc], hbs⟩

theorem dropEnd?_closing_crlf (cs : List Char) : dropEnd? closing (crlf cs) = (dropEnd? closing cs).map crlf := by
  cases h : dropEnd? closing cs with
  | some body =>
    rw [eq_append_of_dropEnd? h, crlf_append]
    exact dropEnd?_append (crlf body) closing
  | none =>
    cases hr : dropEnd? closing (crlf cs) with
    | none => rfl
    | some r =>
      have hend : crlf cs = (r ++ ['*']) ++ ['/'] := by rw [eq_append_of_dropEnd? hr, List.append_assoc]; rfl
      obtain ⟨bs, rfl, hbs⟩ := exists_of_crlf_concat (by decide) hend
      obtain ⟨body, rfl, -⟩ := exists_of_crlf_concat (by decide) hbs
      have hclosed := dropEnd?_append body closing
      rw [List.append_assoc] at h
      exact absurd (h.symm.trans hclosed) (by simp)

end Text

/-! ## The lines of a comment -/

namespace DocComment

open Contents (heard heard_append)

/-- A line, and the same line with or without a carriage return at its end. -/
def Padded (l m : List Char) : Prop := m = l ∨ m = l ++ ['\r']

variable {t u : List Char}

theorem Padded.cons (h : Padded t u) (c : Char) : Padded (c :: t) (c :: u) := by
  cases h with
  | inl h => exact .inl (by rw [h])
  | inr h => exact .inr (by rw [h]; rfl)

/-- The lines of a text and of the text with carriage returns. -/
theorem padded_splitOn (body : List Char) : List.Forall₂ Padded (splitOn '\n' body) (splitOn '\n' (crlf body)) := by
  induction body with
  | nil => exact .cons (.inl rfl) .nil
  | cons c cs ih =>
    by_cases hc : c = '\n'
    · subst hc
      exact .cons (.inr rfl) ih
    · rw [crlf_cons hc, splitOn, splitOn, if_neg hc, if_neg hc]
      generalize splitOn '\n' cs = ls at ih ⊢
      generalize splitOn '\n' (crlf cs) = ms at ih ⊢
      cases ih with
      | nil => exact .cons (.inl rfl) .nil
      | cons hl hls => exact .cons (hl.cons c) hls

theorem trimEnd_padded (h : Padded t u) : trimEnd u = trimEnd t := by
  cases h with
  | inl h => rw [h]
  | inr h =>
    have hr : isBlank '\r' = true := by decide
    simp [h, trimEnd, hr]

theorem Padded.dropWhile_isLead (h : Padded t u) : Padded (t.dropWhile isLead) (u.dropWhile isLead) := by
  cases h with
  | inl h => exact .inl (by rw [h])
  | inr h =>
    have hr : isLead '\r' = true := by decide
    rw [h, List.dropWhile_append]
    split
    · next he => exact .inl (by simp [hr, List.isEmpty_iff.1 he])
    · exact .inr rfl

@[simp] theorem heard_blanks (t : List Char) : heard (blanks t) = [] := by
  cases t <;> rfl

theorem heard_textPieces (t : List Char) :
    heard (textPieces t) = if (trimEnd t).isEmpty then [] else [⟨.docString, trimEnd t⟩] := by
  rw [textPieces, heard_append, heard_blanks, List.append_nil]
  split <;> rfl

theorem heard_textPieces_padded (h : Padded t u) : heard (textPieces u) = heard (textPieces t) := by
  rw [heard_textPieces, heard_textPieces, trimEnd_padded h]

theorem takeWhile_padded (h : Padded t u) :
    (u.takeWhile fun c => !isBlank c) = t.takeWhile fun c => !isBlank c := by
  cases h with
  | inl h => rw [h]
  | inr h =>
    have hstop : Stops (fun c => !isBlank c) ['\r'] := stops_cons.2 (by decide)
    rw [h, takeWhile_append_stops hstop]

theorem Padded.dropWhile_isBlank (h : Padded t u) :
    Padded (t.dropWhile fun c => !isBlank c) (u.dropWhile fun c => !isBlank c) := by
  cases h with
  | inl h => exact .inl (by rw [h])
  | inr h =>
    have hr : isBlank '\r' = true := by decide
    rw [h, List.dropWhile_append]
    split
    · next he => exact .inr (by simp [hr, List.isEmpty_iff.1 he])
    · exact .inr rfl

theorem Padded.eq_cons {c : Char} (h : Padded (c :: t) u) : ∃ v, u = c :: v ∧ Padded t v := by
  cases h with
  | inl h => exact ⟨t, h, .inl rfl⟩
  | inr h => exact ⟨t ++ ['\r'], h, .inr rfl⟩

theorem tagPieces_of_ne {c : Char} (hc : c ≠ '@') (t : List Char) : tagPieces (c :: t) = textPieces (c :: t) := by
  refine tagPieces.eq_2 (c :: t) fun s h => hc ?_
  exact (List.cons.inj h).1

theorem heard_tagPieces_padded (h : Padded t u) : heard (tagPieces u) = heard (tagPieces t) := by
  cases t with
  | nil =>
    cases h with
    | inl h => rw [h]
    | inr h => rw [h]; decide
  | cons c t =>
    obtain ⟨v, rfl, htv⟩ := h.eq_cons
    by_cases hc : c = '@'
    · subst hc
      have tag : ∀ t, heard (tagPieces ('@' :: t)) = ⟨.docTag, '@' :: t.takeWhile fun c => !isBlank c⟩ ::
          heard (textPieces ((t.dropWhile fun c => !isBlank c).dropWhile isLead)) := by
        intro t
        rw [tagPieces, ← List.nil_append (heard (textPieces _)), ← heard_blanks, ← heard_append]
        rfl
      rw [tag, tag, takeWhile_padded htv, heard_textPieces_padded htv.dropWhile_isBlank.dropWhile_isLead]
    · rw [tagPieces_of_ne hc, tagPieces_of_ne hc, heard_textPieces_padded (htv.cons c)]

theorem heard_markPieces_padded (h : Padded t u) (marked : Bool) :
    heard (markPieces marked u) = heard (markPieces marked t) := by
  cases marked with
  | false => exact heard_tagPieces_padded h
  | true =>
    cases t with
    | nil =>
      cases h with
      | inl h => rw [h]
      | inr h => rw [h]; decide
    | cons c t =>
      obtain ⟨v, rfl, htv⟩ := h.eq_cons
      by_cases hc : c = '*'
      · subst hc
        have mark : ∀ t, heard (markPieces true ('*' :: t)) =
            ⟨.docStar, ['*']⟩ :: heard (tagPieces (t.dropWhile isLead)) := by
          intro t
          rw [markPieces, ← List.nil_append (heard (tagPieces _)), ← heard_blanks, ← heard_append]
          rfl
        rw [mark, mark, heard_tagPieces_padded htv.dropWhile_isLead]
      · have unmarked : ∀ t, markPieces true (c :: t) = tagPieces (c :: t) := by
          intro t
          refine markPieces.eq_2 true (c :: t) fun s _ h => hc ?_
          exact (List.cons.inj h).1
        rw [unmarked, unmarked, heard_tagPieces_padded (htv.cons c)]

theorem heard_linePieces_padded (h : Padded t u) (marked : Bool) :
    heard (linePieces marked u) = heard (linePieces marked t) := by
  rw [linePieces, linePieces, heard_append, heard_append, heard_blanks, heard_blanks,
    heard_markPieces_padded h.dropWhile_isLead]

theorem heard_furtherLines_padded {ls ms : List (List Char)} (h : List.Forall₂ Padded ls ms) :
    heard (furtherLines ms) = heard (furtherLines ls) := by
  induction h with
  | nil => rfl
  | @cons l m ls ms hlm _ ih =>
    have split : ∀ (l : List Char) (ls : List (List Char)), heard (furtherLines (l :: ls)) =
        heard (linePieces true l) ++ heard (furtherLines ls) := by
      intro l ls
      rw [furtherLines, List.flatMap_cons, heard_append]
      rfl
    rw [split, split, heard_linePieces_padded hlm, ih]

/-- Carriage returns at the ends of lines change nothing of what a comment says. -/
theorem ofPieces_bodyPieces_crlf (body : List Char) :
    Contents.ofPieces (bodyPieces (crlf body)) = .ofPieces (bodyPieces body) := by
  have h : heard (bodyPieces (crlf body)) = heard (bodyPieces body) := by
    have hlines := padded_splitOn body
    unfold bodyPieces
    generalize splitOn '\n' body = ls at hlines ⊢
    generalize splitOn '\n' (crlf body) = ms at hlines ⊢
    cases hlines with
    | nil => rfl
    | cons hl hls => simp only [heard_append, heard_linePieces_padded hl, heard_furtherLines_padded hls]
  rw [← Contents.ofPieces_heard, h, Contents.ofPieces_heard]

theorem contents?_crlf (text : List Char) : contents? (crlf text) = contents? text := by
  rw [contents?, contents?, dropStart?_crlf (by simp [opening])]
  cases dropStart? opening text with
  | none => rfl
  | some inner =>
    simp only [Option.map_some, Option.bind_some, dropEnd?_closing_crlf, Option.map_map]
    congr 1
    funext body
    exact ofPieces_bodyPieces_crlf body

end DocComment

/-! ## Lexemes -/

/-- No line feed stands right after a backslash. -/
def NoEscapedFeed (cs : List Char) : Prop := ¬ ['\\', '\n'] <:+: cs

theorem NoEscapedFeed.suffix {cs ds : List Char} (h : NoEscapedFeed cs) (hs : ds <:+ cs) : NoEscapedFeed ds :=
  fun hi => h (hi.trans hs.isInfix)

namespace Slice

theorem closeLength_crlf (cs : List Char) : closeLength (crlf cs) = (crlf (cs.take (closeLength cs))).length := by
  fun_induction closeLength cs with
  | case1 cs => rfl
  | case2 c cs hc ih =>
    rw [List.take_succ_cons]
    by_cases hn : c = '\n'
    · subst hn
      rw [crlf_feed, crlf_feed, closeLength_cons (by simp), closeLength_cons (by simp), ih]
      rfl
    · have hopen : ¬ (c = '*' ∧ ∃ ds, crlf cs = '/' :: ds) := by
        rintro ⟨rfl, ds, hds⟩
        have hhead : cs.head? = some '/' := (head?_crlf (by decide) (by decide)).1 (by rw [hds]; rfl)
        obtain ⟨es, rfl⟩ := List.head?_eq_some_iff.1 hhead
        exact hc es rfl rfl
      rw [crlf_cons hn, crlf_cons hn, closeLength_cons hopen, ih]
      rfl
  | case3 => rfl

/-- Items take the carriage returns among them, and the one before a line feed at which they stop. -/
theorem literalItems_crlf {q : Char} (hq : isQuote q = true) {cs : List Char} (h : NoEscapedFeed cs) :
    literalItems q (crlf cs) = ((crlf (cs.take (literalItems q cs).1)).length +
      (if (cs.drop (literalItems q cs).1).head? = some '\n' then 1 else 0), (literalItems q cs).2) := by
  have hr : Lexeme.isPlain q '\r' = true := by
    simp only [isQuote, Bool.or_eq_true, decide_eq_true_eq] at hq
    rcases hq with (rfl | rfl) | rfl <;> decide
  have hqn : q ≠ '\n' := by
    rintro rfl
    exact absurd hq (by decide)
  fun_induction literalItems q cs with
  | case1 => rfl
  | case2 cs => exact absurd (List.prefix_append ['\\', '\n'] cs).isInfix h
  | case3 c cs hc n closed hm ih =>
    have ih := ih (h.suffix ⟨['\\', c], rfl⟩)
    rw [hm] at ih
    rw [crlf_cons (by decide), crlf_cons hc, Lexeme.literalItems_escape hc, ih, List.take_succ_cons,
      List.take_succ_cons, crlf_cons (by decide), crlf_cons hc, List.drop_succ_cons, List.drop_succ_cons]
    simp only [List.length_cons, Prod.mk.injEq, and_true]
    omega
  | case4 cs hb =>
    rw [crlf_cons hqn, Lexeme.literalItems_quote fun he => by rw [he] at hq; exact absurd hq (by decide)]
    simp [hqn]
  | case5 c cs hb hcq hc =>
    by_cases hn : c = '\n'
    · -- The carriage return is one more item, and the items stop at the line feed behind it.
      subst hn
      have hstop : Lexeme.isPlain q '\n' = false := by simpa [Lexeme.isPlain, hcq] using hc
      rw [crlf_feed, Lexeme.literalItems_plain hr, literalItems_stop hstop (by decide)]
      simp [hcq]
    · have hback : c = '\\' := by simpa [hn] using hc
      subst hback
      cases cs with
      | nil =>
        rw [crlf_of_notMem (by decide)]
        simp [literalItems, hcq]
      | cons d cs => exact (hb d cs rfl rfl).elim
  | case6 c cs hb hcq hc n closed hm ih =>
    have ih := ih (h.suffix ⟨[c], rfl⟩)
    have hplain : Lexeme.isPlain q c = true := by
      refine Lexeme.isPlain_iff.2 ⟨hcq, ?_, ?_⟩ <;> simp_all
    rw [hm] at ih
    rw [List.take_succ_cons, List.drop_succ_cons]
    by_cases hn : c = '\n'
    · subst hn
      rw [crlf_feed, crlf_feed, Lexeme.literalItems_plain hr, Lexeme.literalItems_plain hplain, ih]
      simp only [List.length_cons, Prod.mk.injEq, and_true]
      omega
    · rw [crlf_cons hn, crlf_cons hn, Lexeme.literalItems_plain hplain, ih]
      simp only [List.length_cons, Prod.mk.injEq, and_true]
      omega

theorem numberLength_le {c : Char} (hc : c.isDigit = true) (rest : List Char) : numberLength c rest ≤ rest.length := by
  have hdecimal : decimalLength rest ≤ rest.length := Nat.le_of_succ_le_succ (Lexeme.longest_decimal hc rest).fits
  have hhex : hexLength rest ≤ rest.length := by
    by_cases h : hexLength rest = 0
    · rw [h]
      exact Nat.zero_le _
    · exact Nat.le_of_succ_le_succ (Lexeme.longest_hexadecimal h).fits
  unfold numberLength
  split
  · exact Nat.max_le.2 ⟨hhex, hdecimal⟩
  · exact hdecimal

/-- A number holds no line feed, and a carriage return ends it as a line feed does. -/
theorem numberLength_crlf {c : Char} (hc : c.isDigit = true) (cs : List Char) :
    numberLength c (crlf cs) = numberLength c cs ∧ '\n' ∉ cs.take (numberLength c cs) := by
  obtain ⟨run, rest, rfl, hrun, hrest⟩ : ∃ run rest, cs = run ++ rest ∧ '\n' ∉ run ∧ Stops isNumberChar rest :=
    ⟨cs.takeWhile isNumberChar, cs.dropWhile isNumberChar, List.takeWhile_append_dropWhile.symm,
      notMem_takeWhile (by decide) cs, stops_dropWhile isNumberChar cs⟩
  rw [crlf_append, crlf_of_notMem hrun, numberLength_append (hrest.crlf (by decide)), numberLength_append hrest,
    List.take_append_of_le_length (numberLength_le hc run)]
  exact ⟨rfl, fun hmem => hrun (List.mem_of_mem_take hmem)⟩

/-- A comment to the end of its line takes the carriage return before the line feed. -/
theorem takeWhile_ne_crlf (cs : List Char) :
    (crlf cs).takeWhile (· != '\n') =
      cs.takeWhile (· != '\n') ++ if (cs.dropWhile (· != '\n')).head? = some '\n' then ['\r'] else [] := by
  induction cs with
  | nil => rfl
  | cons c cs ih =>
    by_cases hc : c = '\n'
    · subst hc
      simp
    · simp [crlf_cons hc, hc, ih]

/-- How a slash begins. -/
theorem slash_cases (cs : List Char) :
    (∃ ds, cs = '/' :: ds) ∨ (∃ ds, cs = '*' :: '*' :: '/' :: ds) ∨
    (∃ ds, cs = '*' :: '*' :: ds ∧ ds.head? ≠ some '/') ∨ (∃ ds, cs = '*' :: ds ∧ ds.head? ≠ some '*') ∨
    (cs.head? ≠ some '/' ∧ cs.head? ≠ some '*') := by
  by_cases hs : cs.head? = some '/'
  · exact .inl (List.head?_eq_some_iff.1 hs)
  · by_cases hc : cs.head? = some '*'
    · obtain ⟨ds, rfl⟩ := List.head?_eq_some_iff.1 hc
      by_cases hd : ds.head? = some '*'
      · obtain ⟨es, rfl⟩ := List.head?_eq_some_iff.1 hd
        by_cases he : es.head? = some '/'
        · obtain ⟨fs, rfl⟩ := List.head?_eq_some_iff.1 he
          exact .inr (.inl ⟨fs, rfl⟩)
        · exact .inr (.inr (.inl ⟨es, rfl, he⟩))
      · exact .inr (.inr (.inr (.inl ⟨ds, rfl, hd⟩)))
    · exact .inr (.inr (.inr (.inr ⟨hs, hc⟩)))

/-- A lexeme ends where it did, or after the carriage return before a line feed. -/
def EndsAlike (cls : SliceClass) (n : Nat) (cs : List Char) (m : SliceClass × Nat) : Prop :=
  m = (cls, (crlf (cs.take n)).length) ∨
    (cls ≠ .doc ∧ (cs.drop n).head? = some '\n' ∧ m = (cls, (crlf (cs.take n)).length + 1))

theorem measureSlash_crlf (cs : List Char) :
    EndsAlike (measureSlash cs).1 (measureSlash cs).2 cs (measureSlash (crlf cs)) := by
  rcases slash_cases cs with ⟨ds, rfl⟩ | ⟨ds, rfl⟩ | ⟨ds, rfl, hd⟩ | ⟨ds, rfl, hd⟩ | ⟨hs, hc⟩
  · have hrun : crlf (ds.takeWhile (· != '\n')) = ds.takeWhile (· != '\n') :=
      crlf_of_notMem (notMem_takeWhile (by decide) ds)
    rw [crlf_cons (by decide), measureSlash, measureSlash, takeWhile_ne_crlf, EndsAlike, List.take_succ_cons,
      List.drop_succ_cons, take_length_takeWhile, drop_length_takeWhile, crlf_cons (by decide), hrun]
    by_cases hn : (ds.dropWhile (· != '\n')).head? = some '\n'
    · exact .inr ⟨by simp, hn, by simp [hn]⟩
    · exact .inl (by simp [hn])
  · exact .inl rfl
  · have hhead : (crlf ds).head? ≠ some '/' := fun h => hd ((head?_crlf (by decide) (by decide)).1 h)
    rw [measureSlash_doc hd, crlf_cons (by decide), crlf_cons (by decide), measureSlash_doc hhead, closeLength_crlf]
    exact .inl rfl
  · have hhead : (crlf ds).head? ≠ some '*' := fun h => hd ((head?_crlf (by decide) (by decide)).1 h)
    rw [measureSlash_plain hd, crlf_cons (by decide), measureSlash_plain hhead, closeLength_crlf]
    exact .inl rfl
  · have hs' : (crlf cs).head? ≠ some '/' := fun h => hs ((head?_crlf (by decide) (by decide)).1 h)
    have hc' : (crlf cs).head? ≠ some '*' := fun h => hc ((head?_crlf (by decide) (by decide)).1 h)
    rw [measureSlash_alone hs hc, measureSlash_alone hs' hc']
    exact .inl rfl

theorem measureLiteral_crlf {q : Char} (hq : isQuote q = true) {cs : List Char} (h : NoEscapedFeed cs) :
    EndsAlike (measureLiteral q cs).1 (measureLiteral q cs).2 cs (measureLiteral q (crlf cs)) := by
  have hback : q ≠ '\\' := by
    rintro rfl
    exact absurd hq (by decide)
  have hqn : q ≠ '\n' := by
    rintro rfl
    exact absurd hq (by decide)
  have hitems := literalItems_crlf hq h
  rw [measureLiteral_eq, measureLiteral_eq, literalLength, literalLength, hitems]
  cases hc : (literalItems q cs).2 with
  | false =>
    by_cases hn : (cs.drop (literalItems q cs).1).head? = some '\n'
    · exact .inr ⟨by simp, hn, by rw [if_pos hn]; rfl⟩
    · exact .inl (by rw [if_neg hn]; rfl)
  | true =>
    -- The closing quote follows the items, and there is no line feed.
    have hhead : (cs.drop (literalItems q cs).1).head? = some q := by
      have hafter := (Lexeme.literalItems_spec hback cs).2
      rw [hc] at hafter
      exact hafter
    obtain ⟨rest, hrest⟩ := List.head?_eq_some_iff.1 hhead
    have htake : cs.take ((literalItems q cs).1 + 1) = cs.take (literalItems q cs).1 ++ [q] := by
      rw [List.take_add, hrest]
      rfl
    left
    simp [htake, hhead, hqn, crlf_cons hqn]

/-- Carriage returns leave every lexeme but blanks as it is, up to those that it holds itself. -/
theorem measure_crlf {c : Char} (hc : isInlineBlank c = false) {cs : List Char} (h : NoEscapedFeed cs) :
    EndsAlike (measure c cs).1 (measure c cs).2 cs (measure c (crlf cs)) := by
  rcases measure_cases c with ⟨-, hm⟩ | ⟨hb, -⟩ | ⟨hq, hm⟩ | ⟨hd, hm⟩ | ⟨-, hm⟩ | hm
  · rw [hm, hm]
    exact measureSlash_crlf cs
  · rw [hb] at hc
    cases hc
  · rw [hm, hm]
    exact measureLiteral_crlf hq h
  · obtain ⟨hlength, hfeed⟩ := numberLength_crlf hd cs
    rw [hm, hm, hlength]
    left
    rw [crlf_of_notMem hfeed, List.length_take_of_le (numberLength_le hd cs)]
  · have hfeed : '\n' ∉ cs.takeWhile isWordChar := notMem_takeWhile (by decide) cs
    rw [hm, hm, takeWhile_crlf (by decide) (by decide)]
    left
    rw [take_length_takeWhile, crlf_of_notMem hfeed]
  · rw [hm, hm]
    exact .inl rfl

theorem same_advance_crlf {p q : Position} (h : p.Same q) (text : List Char) :
    (p.advance (crlf text)).Same (q.advance text) := by
  induction text generalizing p q with
  | nil => exact h
  | cons c text ih =>
    by_cases hc : c = '\n'
    · subst hc
      exact ih ⟨congrArg (· + 1) h.1, rfl⟩
    · rw [crlf_cons hc]
      exact ih (h.next Iff.rfl)

theorem landmark?_crlf (p : Position) (cls : SliceClass) (text : List Char) :
    landmark? p ⟨cls, crlf text⟩ = landmark? p ⟨cls, text⟩ := by
  simp only [landmark?, DocComment.contents?_crlf]

theorem landmark?_of_ne_doc {cls : SliceClass} (h : cls ≠ .doc) (p : Position) (text text' : List Char) :
    landmark? p ⟨cls, text⟩ = landmark? p ⟨cls, text'⟩ := by
  cases cls with
  | token k => rfl
  | doc => exact absurd rfl h
  | dropped => rfl

/-- A line feed puts the place after it in the first column, whatever stands before it on its line. -/
theorem same_next_feed {p q : Position} (h : p.Same q) : ((p.next '\r').next '\n').Same (q.next '\n') :=
  ⟨congrArg (· + 1) h.1, rfl⟩

/-- Carriage returns leave the landmarks where they are. -/
theorem landmarks_crlf {p q : Position} (h : p.Same q) {cs : List Char} (hn : NoEscapedFeed cs) :
    landmarks p (ofText (crlf cs)) = landmarks q (ofText cs) := by
  -- The induction is on the length, because a lexeme is cut at once and blanks one by one.
  induction hlen : cs.length using Nat.strongRecOn generalizing p q cs with
  | ind n ih =>
    subst hlen
    cases cs with
    | nil => simp [ofText, landmarks]
    | cons c cs =>
      have hrest : NoEscapedFeed cs := hn.suffix (List.suffix_cons c cs)
      by_cases hfeed : c = '\n'
      · subst hfeed
        rw [crlf_feed, landmarks_gap (by decide), landmarks_gap (by decide), landmarks_gap (by decide)]
        exact ih cs.length (by simp) (same_next_feed h) hrest rfl
      · by_cases hblank : isInlineBlank c = true
        · have hgap : isGap c = true := by simp [isGap, hblank]
          rw [crlf_cons hfeed, landmarks_gap hgap, landmarks_gap hgap]
          exact ih cs.length (by simp) (h.next Iff.rfl) hrest rfl
        · have hm := measure_crlf (Bool.eq_false_iff.2 hblank) hrest
          have hsame := same_advance_crlf h (c :: cs.take (measure c cs).2)
          have hsplit : crlf cs = crlf (cs.take (measure c cs).2) ++ crlf (cs.drop (measure c cs).2) := by
            rw [← crlf_append, List.take_append_drop]
          rw [crlf_cons hfeed] at hsame
          rw [crlf_cons hfeed, ofText_cons, ofText_cons, landmarks, landmarks]
          generalize (measure c cs).1 = cls at hm ⊢
          generalize (measure c cs).2 = n at hm hsame hsplit ⊢
          rcases hm with hm | ⟨hdoc, hhead, hm⟩
          · have hshort : (cs.drop n).length < (c :: cs).length := by
              rw [List.length_drop, List.length_cons]
              omega
            rw [hm, hsplit, List.take_left, List.drop_left, ← crlf_cons hfeed, landmark?_crlf, landmark?_same h,
              crlf_cons hfeed, ih (cs.drop n).length hshort hsame (hrest.suffix (List.drop_suffix n cs)) rfl]
          · -- The lexeme has taken the carriage return, and both texts go on with the line feed.
            obtain ⟨ds, hds⟩ := List.head?_eq_some_iff.1 hhead
            have hcut : crlf cs = (crlf (cs.take n) ++ ['\r']) ++ '\n' :: crlf ds := by
              rw [hsplit, hds, crlf_feed, List.append_assoc]
              rfl
            have hlength : (crlf (cs.take n)).length + 1 = (crlf (cs.take n) ++ ['\r']).length := by simp
            have hshort : ds.length < (c :: cs).length := by
              have := congrArg List.length hds
              rw [List.length_drop, List.length_cons] at this
              rw [List.length_cons]
              omega
            have hsuffix : ds <:+ cs := (List.suffix_cons '\n' ds).trans (hds ▸ List.drop_suffix n cs)
            rw [hm, hcut, hlength, List.take_left, List.drop_left, hds, landmarks_gap (by decide),
              landmarks_gap (by decide), landmark?_of_ne_doc hdoc p _ (c :: cs.take n), landmark?_same h,
              ← List.cons_append, Position.advance_append]
            exact congrArg _ (ih ds.length hshort (same_next_feed hsame) (hrest.suffix hsuffix) rfl)

end Slice

theorem withoutByteOrderMark_crlf (source : List Char) :
    withoutByteOrderMark (crlf source) = crlf (withoutByteOrderMark source) := by
  by_cases hmark : source.head? = some '\uFEFF'
  · obtain ⟨cs, rfl⟩ := List.head?_eq_some_iff.1 hmark
    rw [crlf_cons (by decide)]
    rfl
  · have hcrlf : (crlf source).head? ≠ some '\uFEFF' := fun h => hmark ((head?_crlf (by decide) (by decide)).1 h)
    rw [withoutByteOrderMark_eq_self hmark, withoutByteOrderMark_eq_self hcrlf]

/-- The report of a script does not depend on its line endings, as long as no line feed is escaped. -/
theorem analyzeSource_crlf {c : Config} {rules : RuleSet} (h : RuleSet.ofConfig c = .ok rules) (path : Path)
    {source : List Char} (hn : ¬ ['\\', '\n'] <:+: source) :
    ∃ vs ws, analyzeSource .javaScript c rules path source = .ok vs ∧
      analyzeSource .javaScript c rules path (crlf source) = .ok ws ∧ SameReport vs ws := by
  have hsuffix : withoutByteOrderMark source <:+ source := by
    unfold withoutByteOrderMark
    split
    · exact List.suffix_cons _ _
    · exact List.suffix_rfl
  have hlandmarks : landmarksOf source = landmarksOf (crlf source) := by
    rw [landmarksOf, landmarksOf, withoutByteOrderMark_crlf,
      Slice.landmarks_crlf ⟨rfl, rfl⟩ (NoEscapedFeed.suffix hn hsuffix)]
  exact ⟨_, _, rfl, rfl, sameReport_of_landmarks h path hlandmarks⟩

theorem analyzeSource_crlf_unfinished :
    RuleSet.ofConfig {} = .ok RuleSet.standardRules ∧ ¬ ['\\', '\n'] <:+: "/** a\n * @b\n*/ 'y\nz // \n".toList ∧
    crlf "/** a\n * @b\n*/ 'y\nz // \n".toList = "/** a\r\n * @b\r\n*/ 'y\r\nz // \r\n".toList ∧
    ∃ vs ws, analyzeSource .javaScript {} RuleSet.standardRules (.ofString "a.js")
        "/** a\n * @b\n*/ 'y\nz // \n".toList = .ok vs ∧
      analyzeSource .javaScript {} RuleSet.standardRules (.ofString "a.js")
        (crlf "/** a\n * @b\n*/ 'y\nz // \n".toList) = .ok ws ∧ SameReport vs ws := by
  have h : RuleSet.ofConfig {} = .ok RuleSet.standardRules := RuleSet.standard_eq
  have hn : ¬ ['\\', '\n'] <:+: "/** a\n * @b\n*/ 'y\nz // \n".toList := by decide +kernel
  have hcrlf : crlf "/** a\n * @b\n*/ 'y\nz // \n".toList = "/** a\r\n * @b\r\n*/ 'y\r\nz // \r\n".toList := by
    decide +kernel
  exact ⟨h, hn, hcrlf, analyzeSource_crlf h (.ofString "a.js") hn⟩

end DocLint
