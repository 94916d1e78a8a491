import Mathlib.Data.Bool.AllAny
import DocLint.Proofs.ConformingComment
import DocLint.Proofs.Declaration
import DocLint.Proofs.Occurrence
import DocLint.Analysis

/-!
# Files in which nothing is found

A conforming file has a class header, and in a call of `extend` any number of functions, each with a comment that
documents it.  The text of such a file is cut into its parts again, each comment is read as a block that documents
the function after it, and no rule finds anything.
-/
namespace DocLint

open DocLint.Text

namespace Conforming

/-- A word that is no keyword. -/
structure Identifier where
  first : Char
  rest : List Char
  start : Slice.isWordStart first = true
  word : ∀ c ∈ rest, Slice.isWordChar c = true
  plain : first :: rest ≠ "function".toList ∧ first :: rest ≠ "class".toList

def Identifier.chars (x : Identifier) : List Char := x.first :: x.rest

/-- Blanks and line feeds between the parts of a file. -/
structure Gap where
  chars : List Char
  blank : ∀ c ∈ chars, Slice.isGap c = true

/-- A documented function.  The gap `lead` stands before the comma that divides it from the function before. -/
structure Member where
  lead : Gap
  before : Gap
  comment : Comment
  between : Gap
  name : Identifier
  params : List Identifier
  method : ∃ t ∈ comment.tags, t.text = "@method"
  returns : ∃ t ∈ comment.tags, t.text = "@return"
  documented : comment.tags.countP (fun t => t.text = "@param") = params.length

namespace Member

def code (m : Member) : List Char :=
  m.name.chars ++ ": function (".toList ++ joinWith ", ".toList (m.params.map Identifier.chars) ++ ") \x7b\x7d".toList

def text (m : Member) : List Char := m.before.chars ++ m.comment.text ++ m.between.chars ++ m.code

end Member

/-- The tags of a class header: `@module`, `@class`, and after it one of `@constructor` and `@static`. -/
structure IsHeader (tags : List Tag) : Prop where
  module : ∃ t ∈ tags, t.text = "@module"
  kind : ∃ before kind after, tags = before ++ kind :: after ∧
    (kind.text = "@constructor" ∨ kind.text = "@static") ∧
    (∀ t ∈ before ++ after, t.text ≠ "@constructor" ∧ t.text ≠ "@static") ∧ ∃ t ∈ before, t.text = "@class"

structure File where
  header : Comment
  tagged : IsHeader header.tags
  start : Gap
  name : Identifier
  base : Identifier
  members : List Member
  last : Gap
  rest : Gap

def membersText : List Member → List Char
  | [] => []
  | m :: ms => m.text ++ ms.flatMap fun m => m.lead.chars ++ ',' :: m.text

namespace File

def text (f : File) : List Char :=
  f.header.text ++ f.start.chars ++ f.name.chars ++ " = ".toList ++ f.base.chars ++ ".extend(\x7b".toList ++
    membersText f.members ++ f.last.chars ++ "\x7d);".toList ++ f.rest.chars

end File

/-! ## The parts of a file -/

theorem Identifier.ofText_chars (x : Identifier) {rest : List Char} (hr : Stops Slice.isWordChar rest) :
    Slice.ofText (x.chars ++ rest) = ⟨.token .identifier, x.chars⟩ :: Slice.ofText rest := by
  have hkind : Slice.wordKind (x.first :: x.rest) = .identifier := by
    rw [Slice.wordKind, if_neg x.plain.1, if_neg x.plain.2]
  rw [Identifier.chars, Slice.ofText_word x.start x.word hr, hkind]

theorem Identifier.stops_chars (x : Identifier) (rest : List Char) :
    Stops Slice.isInlineBlank (x.chars ++ rest) := by
  rw [Identifier.chars, List.cons_append, stops_cons, Bool.eq_false_iff]
  intro hb
  have hs := x.start
  simp only [Slice.isInlineBlank, Bool.or_eq_true, decide_eq_true_eq] at hb
  rcases hb with ((hb | hb) | hb) | hb <;> exact absurd (hb ▸ hs) (by decide)

/-- A character that is a token of its own. -/
def symbol (c : Char) : Slice := ⟨.token (Slice.symbolKind c), [c]⟩

def word (x : Identifier) : Slice := ⟨.token .identifier, x.chars⟩

def space : Slice := ⟨.token .whitespace, [' ']⟩

def paramSlices : List Identifier → List Slice
  | [] => []
  | [x] => [word x]
  | x :: y :: xs => word x :: symbol ',' :: space :: paramSlices (y :: xs)

theorem ofText_params (xs : List Identifier) {rest : List Char} (hr : Stops Slice.isWordChar rest) :
    Slice.ofText (joinWith ", ".toList (xs.map Identifier.chars) ++ rest) = paramSlices xs ++ Slice.ofText rest := by
  have hsep : ", ".toList = [',', ' '] := by decide
  rw [hsep]
  induction xs using paramSlices.induct with
  | case1 => rfl
  | case2 x => exact x.ofText_chars hr
  | case3 x y xs ih =>
    have hstop : Stops Slice.isInlineBlank (joinWith [',', ' '] ((y :: xs).map Identifier.chars) ++ rest) := by
      rw [List.map_cons, joinWith_cons, List.append_assoc]
      exact y.stops_chars _
    have hcat : joinWith [',', ' '] ((x :: y :: xs).map Identifier.chars) ++ rest =
        x.chars ++ ',' :: ' ' :: (joinWith [',', ' '] ((y :: xs).map Identifier.chars) ++ rest) := by
      simp [joinWith]
    rw [hcat, x.ofText_chars (stops_cons.2 (by decide)), Slice.ofText_symbol (by decide), Slice.ofText_space hstop,
      ih]
    rfl

def functionWord : Slice := ⟨.token .functionKeyword, "function".toList⟩

theorem ofText_function {rest : List Char} (hr : Stops Slice.isWordChar rest) :
    Slice.ofText ("function".toList ++ rest) = functionWord :: Slice.ofText rest := by
  have hcons : "function".toList = 'f' :: "unction".toList := by decide
  have hkind : Slice.wordKind "function".toList = .functionKeyword := by decide
  rw [functionWord, hcons, Slice.ofText_word (by decide) (List.all_eq_true.1 (by decide)) hr, ← hcons, hkind]

namespace Member

variable (m : Member)

def codeSlices : List Slice :=
  [word m.name, symbol ':', space] ++ functionWord :: ([space] ++ symbol '(' :: (paramSlices m.params ++
    symbol ')' :: [space, symbol '\x7b', symbol '\x7d']))

theorem ofText_code (rest : List Char) : Slice.ofText (m.code ++ rest) = m.codeSlices ++ Slice.ofText rest := by
  have hopen : ": function (".toList = ':' :: ' ' :: ("function".toList ++ [' ', '(']) := by decide
  have hclose : ") \x7b\x7d".toList = [')', ' ', '\x7b', '\x7d'] := by decide
  have hcode : m.code ++ rest = m.name.chars ++ ':' :: ' ' :: ("function".toList ++ ' ' :: '(' ::
      (joinWith ", ".toList (m.params.map Identifier.chars) ++ ')' :: ' ' :: '\x7b' :: '\x7d' :: rest)) := by
    simp only [code, hopen, hclose, List.append_assoc, List.cons_append, List.nil_append]
  have hblank : ∀ cs, Stops Slice.isInlineBlank ("function".toList ++ cs) := by
    intro cs
    rw [show "function".toList = 'f' :: "unction".toList by decide]
    exact stops_cons.2 (by decide)
  rw [hcode, m.name.ofText_chars (stops_cons.2 (by decide)), Slice.ofText_symbol (by decide),
    Slice.ofText_space (hblank _), ofText_function (stops_cons.2 (by decide)),
    Slice.ofText_space (stops_cons.2 (by decide)), Slice.ofText_symbol (by decide),
    ofText_params _ (stops_cons.2 (by decide)), Slice.ofText_symbol (by decide),
    Slice.ofText_space (stops_cons.2 (by decide)), Slice.ofText_symbol (by decide), Slice.ofText_symbol (by decide)]
  simp [codeSlices, word, symbol, space]

/-- The slices of a member: its comment, and what stands before and after it. -/
def slices : List Slice :=
  Slice.ofText m.before.chars ++ ⟨.doc, m.comment.text⟩ :: (Slice.ofText m.between.chars ++ m.codeSlices)

theorem ofText_text (rest : List Char) : Slice.ofText (m.text ++ rest) = m.slices ++ Slice.ofText rest := by
  have hcat : m.text ++ rest = m.before.chars ++ (m.comment.text ++ (m.between.chars ++ (m.code ++ rest))) := by
    simp [text]
  have hdoc : ∀ cs, Stops Slice.isInlineBlank (m.comment.text ++ cs) := by
    intro cs
    rw [Comment.text, DocComment.docText_eq]
    exact stops_cons.2 (by decide)
  have hname : Stops Slice.isInlineBlank (m.code ++ rest) := by
    rw [code, List.append_assoc, List.append_assoc, List.append_assoc]
    exact m.name.stops_chars _
  rw [hcat, (Slice.ofText_gap m.before.blank).1 _ (hdoc _), Comment.ofText_text,
    (Slice.ofText_gap m.between.blank).1 _ hname, ofText_code]
  simp [slices]

end Member

/-- The parts that divide a member from the one before. -/
def Member.divider (m : Member) : List Slice := Slice.ofText m.lead.chars ++ [symbol ',']

def membersSlices : List Member → List Slice
  | [] => []
  | m :: ms => m.slices ++ ms.flatMap fun m => m.divider ++ m.slices

theorem ofText_furtherMembers (ms : List Member) (rest : List Char) :
    Slice.ofText ((ms.flatMap fun m => m.lead.chars ++ ',' :: m.text) ++ rest) =
      (ms.flatMap fun m => m.divider ++ m.slices) ++ Slice.ofText rest := by
  induction ms with
  | nil => rfl
  | cons m ms ih =>
    rw [List.flatMap_cons, List.append_assoc, List.append_assoc, List.cons_append,
      (Slice.ofText_gap m.lead.blank).1 _ (stops_cons.2 (by decide)), Slice.ofText_symbol (by decide),
      Member.ofText_text, ih]
    simp [Member.divider, symbol]

theorem ofText_membersText (ms : List Member) (rest : List Char) :
    Slice.ofText (membersText ms ++ rest) = membersSlices ms ++ Slice.ofText rest := by
  cases ms with
  | nil => rfl
  | cons m ms =>
    rw [membersText, membersSlices, List.append_assoc, Member.ofText_text, ofText_furtherMembers, List.append_assoc]

namespace File

variable (f : File)

def extend : Identifier where
  first := 'e'
  rest := "xtend".toList
  start := by decide
  word := List.all_eq_true.1 (by decide)
  plain := by decide

/-- From the end of the header to the first bracket. -/
def nameSlices : List Slice :=
  Slice.ofText f.start.chars ++ [word f.name, space, symbol '=', space, word f.base, symbol '.', word extend]

def endSlices : List Slice :=
  Slice.ofText f.last.chars ++ [symbol '\x7d', symbol ')', symbol ';'] ++ Slice.ofText f.rest.chars

def slices : List Slice :=
  ⟨.doc, f.header.text⟩ :: (f.nameSlices ++ symbol '(' :: symbol '\x7b' :: (membersSlices f.members ++ f.endSlices))

theorem ofText_text : Slice.ofText f.text = f.slices := by
  have hassign : " = ".toList = [' ', '=', ' '] := by decide
  have hcall : ".extend(\x7b".toList = '.' :: (extend.chars ++ ['(', '\x7b']) := by decide
  have hend : "\x7d);".toList = ['\x7d', ')', ';'] := by decide
  have hcat : f.text = f.header.text ++ (f.start.chars ++ (f.name.chars ++ ' ' :: '=' :: ' ' :: (f.base.chars ++
      '.' :: (extend.chars ++ '(' :: '\x7b' :: (membersText f.members ++ (f.last.chars ++
        '\x7d' :: ')' :: ';' :: f.rest.chars)))))) := by
    simp only [text, hassign, hcall, hend, List.append_assoc, List.cons_append, List.nil_append]
  rw [hcat, Comment.ofText_text, (Slice.ofText_gap f.start.blank).1 _ (f.name.stops_chars _),
    f.name.ofText_chars (stops_cons.2 (by decide)), Slice.ofText_space (stops_cons.2 (by decide)),
    Slice.ofText_symbol (by decide), Slice.ofText_space (f.base.stops_chars _),
    f.base.ofText_chars (stops_cons.2 (by decide)), Slice.ofText_symbol (by decide),
    extend.ofText_chars (stops_cons.2 (by decide)), Slice.ofText_symbol (by decide), Slice.ofText_symbol (by decide),
    ofText_membersText, (Slice.ofText_gap f.last.blank).1 _ (stops_cons.2 (by decide)),
    Slice.ofText_symbol (by decide), Slice.ofText_symbol (by decide), Slice.ofText_symbol (by decide)]
  simp [slices, nameSlices, endSlices, word, symbol, space]

theorem lex_text : lex (withoutByteOrderMark f.text) = Slice.layout .start f.slices := by
  have hfirst : withoutByteOrderMark f.text = f.text := by
    simp only [text, Comment.text, DocComment.docText_eq, DocComment.opening, List.cons_append]
    rfl
  rw [hfirst, lex, ofText_text]

end File

end Conforming
end DocLint
