import DocLint.Proofs.SameFindings
import DocLint.Report

/-!
# What a snippet labels

A violation of a script stands at a token, with the offset of the token and the length of its text.  Offsets are
counted in the script, and a byte order mark is no part of it.  In a source without a mark the bytes at a violation are
therefore the text of its token; in one with a mark that text stands behind them, by the length of the mark.
-/
namespace DocLint

open DocLint.Text

/-! ## The byte order mark -/

/-- The byte order mark of a source, if it has one. -/
def byteOrderMark : List Char → List Char
  | '\uFEFF' :: _ => ['\uFEFF']
  | _ => []

theorem byteOrderMark_append (source : List Char) : byteOrderMark source ++ withoutByteOrderMark source = source := by
  unfold byteOrderMark
  split
  · rfl
  · next hmark => rw [List.nil_append, withoutByteOrderMark.eq_2 source hmark]

/-- A token that stands in a text stands as far behind a text before it as that text is long. -/
theorem Token.StandsIn.extract_append {text : List Char} {t : Token} (h : t.StandsIn text) (before : List Char) :
    (before ++ text).utf8Encode.extract (byteLength before + t.start.offset) (byteLength before + t.stop) =
      t.text.toByteArray := by
  obtain ⟨a, b, rfl, hstart⟩ := h
  have hoffset : t.start.offset = byteLength a := by simp [hstart, Position.offset_advance, Position.start]
  have hbytes := extract_utf8Encode (before ++ a) t.text.toList b
  rw [byteLength_append, String.utf8Encode_toList] at hbytes
  rw [Token.stop, hoffset, ← Nat.add_assoc, ← List.append_assoc, ← List.append_assoc]
  exact hbytes

/-! ## The token of a violation -/

theorem DocComment.text_of_mem_tokensAt {p : Position} {inner : List Char} {t : Token} (ht : t ∈ tokensAt p inner)
    (hkind : t.kind = .docOpen) : t.text = "/**" := by
  obtain ⟨ts, h, hts⟩ := exists_tokensAt p inner
  rw [h] at ht
  cases List.mem_cons.1 ht with
  | inl ht => rw [ht]; rfl
  | inr ht => exact absurd hkind (hts t ht).2

/-- Every opener of a script reads the same. -/
theorem Slice.Readable.text_of_docOpen {ss : List Slice} (h : Readable ss) {p : Position} {t : Token}
    (ht : t ∈ layout p ss) (hkind : t.kind = .docOpen) : t.text = "/**" := by
  induction h generalizing p with
  | nil => cases ht
  | @code k _ _ hk _ ih =>
    cases List.mem_cons.1 ht with
    | inl ht =>
      rw [ht] at hkind
      rw [show k = .docOpen from hkind] at hk
      cases hk
    | inr ht => exact ih ht
  | dropped _ ih => exact ih ht
  | closed _ ih =>
    cases List.mem_append.1 ht with
    | inl ht => exact DocComment.text_of_mem_tokensAt ht hkind
    | inr ht => exact ih ht
  | unclosed _ =>
    cases List.mem_append.1 ht with
    | inl ht => exact DocComment.text_of_mem_tokensAt ht hkind
    | inr ht => cases ht

/-- The token that a violation stands at: for the rule about the whole file the first one, for every other rule an
opener. -/
structure Violation.StandsAt (v : Violation) (tokens : List Token) (t : Token) : Prop where
  mem : t ∈ tokens
  place : v.location = .ofToken? v.location.file (some t)
  first : v.code = "YD007" → tokens.head? = some t
  opener : v.code ≠ "YD007" → t.kind = .docOpen ∧ t.text = "/**"

namespace FileView

variable {c : Config} {rules : RuleSet} {path : Path} {source : List Char} {v : Violation}

theorem exists_standsAt_opener {o : Nat} (ho : o ∈ (Stream.ofSource source).openers)
    (hlocation : v.location = (FileView.mk path (.ofSource source)).location o) (hcode : v.code ≠ "YD007") :
    ∃ t, v.StandsAt (lex (withoutByteOrderMark source)) t := by
  obtain ⟨t, ht, hkind⟩ := Stream.exists_token_of_mem_openers ho
  have htoken : (Stream.ofSource source).tokens[o]? = some t := ht
  have hmem := List.mem_of_getElem? ht
  refine ⟨t, hmem, ?_, fun h => absurd h hcode,
    fun _ => ⟨hkind, (Slice.readable_ofText _).text_of_docOpen hmem hkind⟩⟩
  rw [hlocation, location, htoken]
  rfl

/-- Whatever is found in a script stands at a token, unless the script has none. -/
theorem exists_standsAt (h : rules.Telling) (hv : v ∈ (FileView.mk path (.ofSource source)).found c rules)
    (hlength : 0 < v.location.length) : ∃ t, v.StandsAt (lex (withoutByteOrderMark source)) t := by
  rcases mem_found h hv with ⟨hcode, o, ho, hv⟩ | ⟨b, hb, r, hr, hcode, hlocation, -⟩ | ⟨hcode, hv⟩
  · obtain ⟨u, hu, rfl⟩ := exists_of_mem_adjust hv
    obtain rfl := List.mem_singleton.1 hu
    exact exists_standsAt_opener ho rfl fun he => absurd (hcode.symm.trans he) (by decide)
  · have hne : v.code ≠ "YD007" := by
      rw [hcode]
      exact (h.code_ne hr).2
    exact exists_standsAt_opener (mem_blocks.1 hb).1 hlocation hne
  · have hlocation : v.location = (FileView.mk path (.ofSource source)).location 0 := by
      obtain ⟨u, hu, rfl⟩ := exists_of_mem_adjust hv
      rw [Rule.eq_of_mem_modulePresence hu]
      rfl
    have hfirst : v.location = .ofToken? path (lex (withoutByteOrderMark source)).head? := by
      rw [hlocation, List.head?_eq_getElem?]
      rfl
    cases hhead : (lex (withoutByteOrderMark source)).head? with
    | none =>
      rw [hfirst, hhead] at hlength
      cases hlength
    | some t =>
      rw [hhead] at hfirst
      refine ⟨t, List.mem_of_head? hhead, ?_, fun _ => hhead, fun hne => absurd hcode hne⟩
      rw [hfirst]
      rfl

end FileView

/-! ## The span over the source -/

namespace Snippet

/-- The bytes of a text that a snippet labels. -/
def labelled (s : Snippet) (text : String) : ByteArray := text.toByteArray.extract s.offset (s.offset + s.length)

/-- The snippet with its span further on, by a number of bytes. -/
def move (n : Nat) (s : Snippet) : Snippet := { s with offset := n + s.offset }

@[simp] theorem move_zero (s : Snippet) : s.move 0 = s := by simp [move]

end Snippet

/-- Over a text behind another one, the snippet of a violation has to be moved by the other's length. -/
theorem Violation.StandsAt.labelled_move {v : Violation} {text : List Char} {t : Token} (h : v.StandsAt (lex text) t)
    (before : List Char) (shown : String) :
    ((v.snippet shown).move (byteLength before)).labelled (String.ofList (before ++ text)) = t.text.toByteArray := by
  have hoffset : v.location.offset = t.start.offset := by
    rw [h.place]
    rfl
  have hlength : v.location.length = byteLength t.text.toList := by
    rw [h.place]
    rfl
  have hbytes := (standsIn_of_mem_lex h.mem).extract_append before
  rw [Token.stop, ← Nat.add_assoc, ← hoffset, ← hlength] at hbytes
  rw [Snippet.labelled, String.toByteArray_ofList]
  exact hbytes

/-- Every violation with a length stands at a token: the first one of the script if the module is missing, else the
opener of a comment.  Moved by the byte order mark, if there is one, its snippet labels the text of that token in the
source; without a mark the snippet itself does. -/
theorem snippet_labels_token {c : Config} {rules : RuleSet} (h : RuleSet.ofConfig c = .ok rules) (path : Path)
    (source : List Char) :
    ∃ vs, analyzeSource .javaScript c rules path source = .ok vs ∧
      ∀ v ∈ vs, 0 < v.location.length → ∃ t, v.StandsAt (lex (withoutByteOrderMark source)) t ∧
        ((v.snippet (.ofList source)).move (byteLength (byteOrderMark source))).labelled (.ofList source) =
          t.text.toByteArray ∧
        (byteOrderMark source = [] → (v.snippet (.ofList source)).labelled (.ofList source) = t.text.toByteArray) := by
  refine ⟨_, rfl, fun v hv hlength => ?_⟩
  have hfound := (Violation.sorted_perm _).mem_iff.1 hv
  obtain ⟨t, ht⟩ := FileView.exists_standsAt (RuleSet.telling_ofConfig h) hfound hlength
  have hmoved := ht.labelled_move (byteOrderMark source) (.ofList source)
  rw [byteOrderMark_append] at hmoved
  refine ⟨t, ht, hmoved, fun hmark => ?_⟩
  rw [hmark, byteLength_nil, Snippet.move_zero] at hmoved
  exact hmoved

/-- Behind a character of two bytes and a bracket, the snippet of an unclosed comment labels the opener. -/
theorem snippet_labels_token_of_unmarked :
    RuleSet.ofConfig {} = .ok RuleSet.standardRules ∧ byteOrderMark "é(/** A.".toList = [] ∧
    ∃ vs v, analyzeSource .javaScript {} RuleSet.standardRules (.ofString "a.js") "é(/** A.".toList = .ok vs ∧
      v ∈ vs ∧ v.code = "YD000" ∧ v.location.offset = 3 ∧ v.location.length = 3 ∧
      (v.snippet (.ofList "é(/** A.".toList)).labelled (.ofList "é(/** A.".toList) = "/**".toByteArray := by
  have h : RuleSet.ofConfig {} = .ok RuleSet.standardRules := RuleSet.standard_eq
  have hopen : 2 ∈ (FileView.mk (.ofString "a.js") (.ofSource "é(/** A.".toList)).unclosed := by decide +kernel
  have hplace : (FileView.mk (.ofString "a.js") (.ofSource "é(/** A.".toList)).location 2 =
      ⟨.ofString "a.js", 1, 3, 3, 3⟩ := by decide +kernel
  have hmem := FileView.unclosedViolation_mem_analyze RuleSet.standardRules hopen
  obtain ⟨vs, hvs, hlabelled⟩ := snippet_labels_token h (.ofString "a.js") "é(/** A.".toList
  cases hvs
  have hlength : 0 < ((FileView.mk (.ofString "a.js") (.ofSource "é(/** A.".toList)).location 2).length := by
    rw [hplace]
    decide
  obtain ⟨t, ht, -, hbytes⟩ := hlabelled _ hmem hlength
  rw [(ht.opener (by decide)).2] at hbytes
  refine ⟨h, rfl, _, _, rfl, hmem, rfl, ?_, ?_, hbytes rfl⟩
  · exact congrArg Location.offset hplace
  · exact congrArg Location.length hplace

/-- Behind a byte order mark, the snippet of an unclosed comment labels the mark. -/
theorem snippet_labels_mark :
    RuleSet.ofConfig {} = .ok RuleSet.standardRules ∧
    ∃ vs v, analyzeSource .javaScript {} RuleSet.standardRules (.ofString "a.js") "\uFEFF/** A.".toList = .ok vs ∧
      v ∈ vs ∧ v.code = "YD000" ∧ 0 < v.location.length ∧
      (v.snippet "\uFEFF/** A.").labelled "\uFEFF/** A." = "\uFEFF".toByteArray ∧
      (v.snippet "\uFEFF/** A.").labelled "\uFEFF/** A." ≠ "/**".toByteArray := by
  have hopen : 0 ∈ (FileView.mk (.ofString "a.js") (.ofSource "\uFEFF/** A.".toList)).unclosed := by decide +kernel
  exact ⟨RuleSet.standard_eq, _, _, rfl, FileView.unclosedViolation_mem_analyze _ hopen, rfl, by decide +kernel,
    by decide +kernel, by decide +kernel⟩

end DocLint
