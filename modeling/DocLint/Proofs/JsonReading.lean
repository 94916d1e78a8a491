import Mathlib.Data.List.TakeWhile
import Mathlib.Data.List.Basic
import DocLint.Json

/-!
# Reading JSON texts

A reader for JSON texts whose values are those that a report needs: natural numbers, texts, lists and objects.  Blanks
may stand between all parts, a text may be written with any of the escapes, and a control character has to be written
with one.  What was written is read back, whatever follows it.
-/
namespace DocLint.Json

/-! ## The reader -/

/-- The characters that may stand between the parts of a JSON text. -/
def isBlank (c : Char) : Bool := c = ' ' || c = '\t' || c = '\n' || c = '\r'

def skip (cs : List Char) : List Char := cs.dropWhile isBlank

def hexValue? (c : Char) : Option Nat :=
  if '0' ≤ c ∧ c ≤ '9' then some (c.toNat - '0'.toNat)
  else if 'a' ≤ c ∧ c ≤ 'f' then some (c.toNat - 'a'.toNat + 10)
  else if 'A' ≤ c ∧ c ≤ 'F' then some (c.toNat - 'A'.toNat + 10)
  else none

/-- The number of four hexadecimal digits. -/
def codeUnit? (a b c d : Char) : Option Nat :=
  ([a, b, c, d].mapM hexValue?).map fun digits => digits.foldl (fun n digit => 16 * n + digit) 0

def isHighSurrogate (n : Nat) : Bool := 0xd800 ≤ n && n < 0xdc00

def isLowSurrogate (n : Nat) : Bool := 0xdc00 ≤ n && n < 0xe000

/-- The character of a pair of surrogates. -/
def pairChar (high low : Nat) : Char := Char.ofNat (0x10000 + 0x400 * (high - 0xd800) + (low - 0xdc00))

/-- What a character behind a backslash stands for. -/
def shortEscape? : Char → Option Char
  | '\x22' => some '\x22'
  | '\\' => some '\\'
  | '/' => some '/'
  | 'b' => some '\x08'
  | 'f' => some '\x0c'
  | 'n' => some '\n'
  | 'r' => some '\r'
  | 't' => some '\t'
  | _ => none

/-- The text after an opening quote, up to the closing one, and what follows. -/
def readText? : List Char → Option (List Char × List Char)
  | [] => none
  | '\x22' :: cs => some ([], cs)
  | '\\' :: 'u' :: a :: b :: c :: d :: cs =>
    match codeUnit? a b c d with
    | none => none
    | some n =>
      if isHighSurrogate n then
        match cs with
        | '\\' :: 'u' :: e :: f :: g :: h :: cs =>
          match codeUnit? e f g h with
          | some m => if isLowSurrogate m then (readText? cs).map fun r => (pairChar n m :: r.1, r.2) else none
          | none => none
        | _ => none
      else if isLowSurrogate n then none
      else (readText? cs).map fun r => (Char.ofNat n :: r.1, r.2)
  | '\\' :: c :: cs =>
    match shortEscape? c with
    | some d => (readText? cs).map fun r => (d :: r.1, r.2)
    | none => none
  | c :: cs => if c.toNat < 0x20 then none else (readText? cs).map fun r => (c :: r.1, r.2)

/-- A natural number in digits, without leading zeros.  A fraction or an exponent must not follow. -/
def readNumber? (cs : List Char) : Option (Nat × List Char) :=
  let digits := cs.takeWhile Char.isDigit
  let rest := cs.dropWhile Char.isDigit
  if digits = [] ∨ (digits.head? = some '0' ∧ digits ≠ ['0']) ∨
      (rest.head?.any fun c => c = '.' || c = 'e' || c = 'E') then
    none
  else some (Nat.ofDigitChars 10 digits 0, rest)

mutual

/-- The first value of a text, and what follows.  No value has more parts inside of each other than characters. -/
def readValue? : Nat → List Char → Option (Json × List Char)
  | 0, _ => none
  | fuel + 1, cs =>
    match skip cs with
    | '\x22' :: cs => (readText? cs).map fun r => (.text (String.ofList r.1), r.2)
    | '[' :: cs =>
      match skip cs with
      | ']' :: rest => some (.list [], rest)
      | _ => (readItems? fuel cs).map fun r => (.list r.1, r.2)
    | '\x7b' :: cs =>
      match skip cs with
      | '\x7d' :: rest => some (.object [], rest)
      | _ => (readFields? fuel cs).map fun r => (.object r.1, r.2)
    | cs => (readNumber? cs).map fun r => (.number r.1, r.2)

/-- The items of a list up to its closing bracket, and what follows. -/
def readItems? : Nat → List Char → Option (List Json × List Char)
  | 0, _ => none
  | fuel + 1, cs =>
    match readValue? fuel cs with
    | none => none
    | some (x, cs) =>
      match skip cs with
      | ',' :: cs => (readItems? fuel cs).map fun r => (x :: r.1, r.2)
      | ']' :: rest => some ([x], rest)
      | _ => none

/-- The fields of an object up to its closing brace, and what follows. -/
def readFields? : Nat → List Char → Option (List (String × Json) × List Char)
  | 0, _ => none
  | fuel + 1, cs =>
    match skip cs with
    | '\x22' :: cs =>
      match readText? cs with
      | none => none
      | some (key, cs) =>
        match skip cs with
        | ':' :: cs =>
          match readValue? fuel cs with
          | none => none
          | some (x, cs) =>
            match skip cs with
            | ',' :: cs => (readFields? fuel cs).map fun r => ((String.ofList key, x) :: r.1, r.2)
            | '\x7d' :: rest => some ([(String.ofList key, x)], rest)
            | _ => none
        | _ => none
    | _ => none

end

/-- The value of a JSON text. -/
def read? (cs : List Char) : Option Json :=
  match readValue? cs.length cs with
  | some (value, rest) => if skip rest = [] then some value else none
  | none => none

/-! ## Blanks -/

theorem skip_of_not_isBlank {c : Char} (h : isBlank c = false) (cs : List Char) : skip (c :: cs) = c :: cs :=
  List.dropWhile_cons_of_neg (by simp [h])

theorem skip_lineBreak (level : Nat) (cs : List Char) : skip (lineBreak level ++ cs) = skip cs := by
  have hblank : ∀ c ∈ lineBreak level, isBlank c = true := by
    intro c hc
    rcases List.mem_cons.1 hc with rfl | hc
    · rfl
    · rw [(List.mem_replicate.1 hc).2]
      rfl
  exact List.dropWhile_append_of_pos hblank

/-- Blanks before a value do not matter. -/
theorem readValue?_congr (fuel : Nat) {cs ds : List Char} (h : skip cs = skip ds) :
    readValue? fuel cs = readValue? fuel ds := by
  cases fuel with
  | zero => rfl
  | succ fuel => rw [readValue?, readValue?, h]

/-! ## Texts -/

theorem codeUnit?_control : ∀ n < 0x20, codeUnit? '0' '0' (hexDigit (n / 16)) (hexDigit n) = some n := by
  decide +kernel

theorem readText?_plain {c : Char} (hquote : c ≠ '\x22') (hslash : c ≠ '\\') (hcontrol : ¬ c.toNat < 0x20)
    (cs : List Char) : readText? (c :: cs) = (readText? cs).map fun r => (c :: r.1, r.2) := by
  rw [readText?]
  · rw [if_neg hcontrol]
  all_goals simp_all

/-- Every character is read as it was written. -/
theorem readText?_escape (c : Char) (cs : List Char) :
    readText? (escape c ++ cs) = (readText? cs).map fun r => (c :: r.1, r.2) := by
  rw [escape.eq_def]
  split
  · rfl
  · rfl
  · rfl
  · rfl
  · rfl
  · rfl
  · rfl
  · next hquote hslash _ _ _ _ _ =>
    split
    · next hcontrol =>
      have hunit := codeUnit?_control c.toNat hcontrol
      have hhigh : isHighSurrogate c.toNat = false := by simp [isHighSurrogate]; omega
      have hlow : isLowSurrogate c.toNat = false := by simp [isLowSurrogate]; omega
      show readText? ('\\' :: 'u' :: '0' :: '0' :: hexDigit (c.toNat / 16) :: hexDigit c.toNat :: cs) = _
      rw [readText?, hunit]
      simp [hhigh, hlow, Char.ofNat_toNat]
    · next hcontrol => exact readText?_plain hquote hslash hcontrol cs

theorem readText?_flatMap (s rest : List Char) : readText? (s.flatMap escape ++ '\x22' :: rest) = some (s, rest) := by
  induction s with
  | nil => rfl
  | cons c s ih => rw [List.flatMap_cons, List.append_assoc, readText?_escape, ih, Option.map_some]

-- Escapes that are never written are read all the same: a number, a pair of surrogates, a solidus.
example : readText? "\\u00E9\\ud83d\\ude00\\/\x22".toList = some ("é😀/".toList, []) := by decide +kernel

theorem quote_append (s : String) (rest : List Char) :
    quote s ++ rest = '\x22' :: (s.toList.flatMap escape ++ '\x22' :: rest) := by
  simp [quote]

/-! ## Numbers -/

/-- What may follow a value: nothing that would make a number longer. -/
def Ends (rest : List Char) : Prop := ∀ c ∈ rest.head?, c.isDigit = false ∧ c ≠ '.' ∧ c ≠ 'e' ∧ c ≠ 'E'

theorem ends_cons {c : Char} {rest : List Char} (h : c.isDigit = false ∧ c ≠ '.' ∧ c ≠ 'e' ∧ c ≠ 'E') :
    Ends (c :: rest) := by
  intro d hd
  obtain rfl : c = d := Option.some.inj hd
  exact h

theorem exists_toDigits_cons (n : Nat) : ∃ c cs, Nat.toDigits 10 n = c :: cs ∧ c.isDigit = true := by
  obtain ⟨c, cs, hdigits⟩ := List.exists_cons_of_ne_nil (Nat.toDigits_ne_nil (n := n) (b := 10))
  have hmem : c ∈ Nat.toDigits 10 n := by simp [hdigits]
  exact ⟨c, cs, hdigits, Nat.isDigit_of_mem_toDigits (by decide) (by decide) hmem⟩

theorem head?_toDigits_ne {n : Nat} (h : n ≠ 0) : (Nat.toDigits 10 n).head? ≠ some '0' := by
  induction n using Nat.strongRecOn with
  | ind n ih =>
    rw [Nat.toDigits_eq_if (by decide)]
    split
    · next hlt =>
      have hdigit : ∀ m < 10, m ≠ 0 → some m.digitChar ≠ some '0' := by decide
      exact hdigit n hlt h
    · next hle =>
      have hquotient : n / 10 ≠ 0 := by omega
      rw [List.head?_append_of_ne_nil _ Nat.toDigits_ne_nil]
      exact ih (n / 10) (by omega) hquotient

theorem readNumber?_toDigits (n : Nat) {rest : List Char} (h : Ends rest) :
    readNumber? (Nat.toDigits 10 n ++ rest) = some (n, rest) := by
  have hdigits : ∀ c ∈ Nat.toDigits 10 n, c.isDigit = true :=
    fun c hc => Nat.isDigit_of_mem_toDigits (by decide) (by decide) hc
  have htake : rest.takeWhile Char.isDigit = [] := by
    cases rest with
    | nil => rfl
    | cons c rest => rw [List.takeWhile_cons_of_neg (by simp [(h c rfl).1])]
  have hdrop : rest.dropWhile Char.isDigit = rest := by
    cases rest with
    | nil => rfl
    | cons c rest => rw [List.dropWhile_cons_of_neg (by simp [(h c rfl).1])]
  have hzero : ¬ ((Nat.toDigits 10 n).head? = some '0' ∧ Nat.toDigits 10 n ≠ ['0']) := by
    rintro ⟨hhead, hmore⟩
    by_cases hn : n = 0
    · exact hmore (hn ▸ Nat.toDigits_zero 10)
    · exact head?_toDigits_ne hn hhead
  have hends : ¬ (rest.head?.any fun c => c = '.' || c = 'e' || c = 'E') = true := by
    cases rest with
    | nil => simp
    | cons c rest => simpa [and_assoc] using (h c rfl).2
  simp only [readNumber?]
  rw [List.takeWhile_append_of_pos hdigits, List.dropWhile_append_of_pos hdigits, htake, hdrop, List.append_nil, if_neg]
  · rw [Nat.ofDigitChars_toDigits (by decide) (by decide)]
  · rintro (hnil | hleading | hmore)
    · exact Nat.toDigits_ne_nil hnil
    · exact hzero hleading
    · exact hends hmore

theorem isBlank_of_isDigit {c : Char} (h : c.isDigit = true) : isBlank c = false := by
  rw [Bool.eq_false_iff]
  intro hblank
  simp only [isBlank, Bool.or_eq_true, decide_eq_true_eq] at hblank
  rcases hblank with ((rfl | rfl) | rfl) | rfl <;> exact absurd h (by decide)

theorem readValue?_digit {c : Char} (h : c.isDigit = true) (fuel : Nat) (cs : List Char) :
    readValue? (fuel + 1) (c :: cs) = (readNumber? (c :: cs)).map fun r => (.number r.1, r.2) := by
  rw [readValue?, skip_of_not_isBlank (isBlank_of_isDigit h)]
  split
  · next heq =>
    obtain ⟨rfl, -⟩ := List.cons.inj heq
    exact absurd h (by decide)
  · next heq =>
    obtain ⟨rfl, -⟩ := List.cons.inj heq
    exact absurd h (by decide)
  · next heq =>
    obtain ⟨rfl, -⟩ := List.cons.inj heq
    exact absurd h (by decide)
  · rfl

/-! ## Values -/

theorem render_number (level n : Nat) : render level (.number n) = Nat.toDigits 10 n := by
  rw [render]
  exact Nat.toList_repr

/-- A value starts with a character that is neither a blank nor the end of anything. -/
theorem exists_render_head (level : Nat) (v : Json) :
    ∃ c cs, render level v = c :: cs ∧ isBlank c = false ∧ c ≠ ']' ∧ c ≠ '\x7d' := by
  cases v with
  | number n =>
    obtain ⟨c, cs, hdigits, hdigit⟩ := exists_toDigits_cons n
    refine ⟨c, cs, by rw [render_number, hdigits], isBlank_of_isDigit hdigit, ?_, ?_⟩
    · rintro rfl
      exact absurd hdigit (by decide)
    · rintro rfl
      exact absurd hdigit (by decide)
  | text s => exact ⟨'\x22', _, by rw [render, quote]; rfl, by decide, by decide, by decide⟩
  | list xs =>
    cases xs with
    | nil => exact ⟨'[', [']'], by rw [render], by decide, by decide, by decide⟩
    | cons x xs => exact ⟨'[', _, by rw [render]; rfl, by decide, by decide, by decide⟩
  | object fs =>
    cases fs with
    | nil => exact ⟨'\x7b', ['\x7d'], by rw [render], by decide, by decide, by decide⟩
    | cons f fs => exact ⟨'\x7b', _, by rw [render]; rfl, by decide, by decide, by decide⟩

theorem readValue?_quote (fuel : Nat) (cs : List Char) : readValue? (fuel + 1) ('\x22' :: cs) =
    (readText? cs).map fun r => (.text (String.ofList r.1), r.2) := by
  rw [readValue?, skip_of_not_isBlank (by decide)]
  rfl

theorem readValue?_bracket (fuel : Nat) {cs : List Char} (h : ∀ rest, skip cs ≠ ']' :: rest) :
    readValue? (fuel + 1) ('[' :: cs) = (readItems? fuel cs).map fun r => (.list r.1, r.2) := by
  rw [readValue?, skip_of_not_isBlank (by decide)]
  show (match skip cs with | ']' :: rest => _ | _ => _) = _
  split
  · next rest heq => exact absurd heq (h rest)
  · rfl

theorem readValue?_brace (fuel : Nat) {cs : List Char} (h : ∀ rest, skip cs ≠ '\x7d' :: rest) :
    readValue? (fuel + 1) ('\x7b' :: cs) = (readFields? fuel cs).map fun r => (.object r.1, r.2) := by
  rw [readValue?, skip_of_not_isBlank (by decide)]
  show (match skip cs with | '\x7d' :: rest => _ | _ => _) = _
  split
  · next rest heq => exact absurd heq (h rest)
  · rfl

theorem readItems?_last {fuel : Nat} {cs after rest : List Char} {x : Json}
    (hvalue : readValue? fuel cs = some (x, after)) (hafter : skip after = ']' :: rest) :
    readItems? (fuel + 1) cs = some ([x], rest) := by
  simp only [readItems?, hvalue, hafter]

theorem readItems?_more {fuel : Nat} {cs after more : List Char} {x : Json}
    (hvalue : readValue? fuel cs = some (x, after)) (hafter : skip after = ',' :: more) :
    readItems? (fuel + 1) cs = (readItems? fuel more).map fun r => (x :: r.1, r.2) := by
  simp only [readItems?, hvalue, hafter]

/-- A text starts with a field: a quoted key, a colon and a value. -/
def ReadsField (fuel : Nat) (cs : List Char) (f : String × Json) (after : List Char) : Prop :=
  ∃ quoted colon value, skip cs = '\x22' :: quoted ∧ readText? quoted = some (f.1.toList, colon) ∧
    skip colon = ':' :: value ∧ readValue? fuel value = some (f.2, after)

theorem readFields?_last {fuel : Nat} {cs after rest : List Char} {f : String × Json}
    (hfield : ReadsField fuel cs f after) (hafter : skip after = '\x7d' :: rest) :
    readFields? (fuel + 1) cs = some ([f], rest) := by
  obtain ⟨quoted, colon, value, hquote, hkey, hcolon, hvalue⟩ := hfield
  simp only [readFields?, hquote, hkey, hcolon, hvalue, hafter, String.ofList_toList]

theorem readFields?_more {fuel : Nat} {cs after more : List Char} {f : String × Json}
    (hfield : ReadsField fuel cs f after) (hafter : skip after = ',' :: more) :
    readFields? (fuel + 1) cs = (readFields? fuel more).map fun r => (f :: r.1, r.2) := by
  obtain ⟨quoted, colon, value, hquote, hkey, hcolon, hvalue⟩ := hfield
  simp only [readFields?, hquote, hkey, hcolon, hvalue, hafter, String.ofList_toList]

/-- With so many steps, whatever is not longer than that is read back. -/
structure ReadsBack (fuel : Nat) : Prop where
  value : ∀ (level : Nat) (v : Json) (rest : List Char), (render level v).length ≤ fuel → Ends rest →
    readValue? fuel (render level v ++ rest) = some (v, rest)
  items : ∀ (level outer : Nat) (x : Json) (xs : List Json) (rest : List Char),
    (renderItems level (x :: xs)).length ≤ fuel →
    readItems? fuel (renderItems level (x :: xs) ++ (lineBreak outer ++ ']' :: rest)) = some (x :: xs, rest)
  fields : ∀ (level outer : Nat) (f : String × Json) (fs : List (String × Json)) (rest : List Char),
    (renderFields level (f :: fs)).length ≤ fuel →
    readFields? fuel (renderFields level (f :: fs) ++ (lineBreak outer ++ '\x7d' :: rest)) = some (f :: fs, rest)

theorem ends_lineBreak (level : Nat) (rest : List Char) : Ends (lineBreak level ++ rest) := ends_cons (by decide)

theorem ends_comma (rest : List Char) : Ends (',' :: rest) := ends_cons (by decide)

/-- The items after the first one, behind a comma if there are any. -/
def renderMoreItems (level : Nat) : List Json → List Char
  | [] => []
  | x :: xs => ',' :: renderItems level (x :: xs)

theorem renderItems_cons (level : Nat) (x : Json) (xs : List Json) :
    renderItems level (x :: xs) = lineBreak level ++ render level x ++ renderMoreItems level xs := by
  cases xs with
  | nil => rw [renderItems, renderMoreItems, List.append_nil]
  | cons y ys => rw [renderItems, renderMoreItems]; simp

/-- The fields after the first one, behind a comma if there are any. -/
def renderMoreFields (level : Nat) : List (String × Json) → List Char
  | [] => []
  | f :: fs => ',' :: renderFields level (f :: fs)

theorem renderFields_cons (level : Nat) (f : String × Json) (fs : List (String × Json)) :
    renderFields level (f :: fs) =
      lineBreak level ++ quote f.1 ++ ':' :: ' ' :: render level f.2 ++ renderMoreFields level fs := by
  cases fs with
  | nil => rw [renderFields, renderMoreFields, List.append_nil]
  | cons g gs => rw [renderFields, renderMoreFields]; simp

section Step

variable {fuel : Nat} (h : ReadsBack fuel)
include h

theorem ReadsBack.list_succ (level : Nat) (x : Json) (xs : List Json) (rest : List Char)
    (hlength : (render level (.list (x :: xs))).length ≤ fuel + 1) :
    readValue? (fuel + 1) (render level (.list (x :: xs)) ++ rest) = some (.list (x :: xs), rest) := by
  have hshape : render level (.list (x :: xs)) ++ rest =
      '[' :: (renderItems (level + 1) (x :: xs) ++ (lineBreak level ++ ']' :: rest)) := by
    rw [render]
    simp
  -- No item starts with a closing bracket, so this is not taken for the empty list.
  have hopen : ∀ after,
      skip (renderItems (level + 1) (x :: xs) ++ (lineBreak level ++ ']' :: rest)) ≠ ']' :: after := by
    obtain ⟨c, cs, hc, hblank, hne, -⟩ := exists_render_head (level + 1) x
    intro after heq
    rw [renderItems_cons, List.append_assoc, List.append_assoc, skip_lineBreak, hc, List.cons_append,
      skip_of_not_isBlank hblank] at heq
    exact hne (List.cons.inj heq).1
  have hitems : (renderItems (level + 1) (x :: xs)).length ≤ fuel := by
    rw [render] at hlength
    simp only [List.length_append, List.length_cons] at hlength
    omega
  rw [hshape, readValue?_bracket fuel hopen, h.items (level + 1) level x xs rest hitems, Option.map_some]

theorem ReadsBack.object_succ (level : Nat) (f : String × Json) (fs : List (String × Json)) (rest : List Char)
    (hlength : (render level (.object (f :: fs))).length ≤ fuel + 1) :
    readValue? (fuel + 1) (render level (.object (f :: fs)) ++ rest) = some (.object (f :: fs), rest) := by
  have hshape : render level (.object (f :: fs)) ++ rest =
      '\x7b' :: (renderFields (level + 1) (f :: fs) ++ (lineBreak level ++ '\x7d' :: rest)) := by
    rw [render]
    simp
  have hopen : ∀ after,
      skip (renderFields (level + 1) (f :: fs) ++ (lineBreak level ++ '\x7d' :: rest)) ≠ '\x7d' :: after := by
    intro after heq
    rw [renderFields_cons, List.append_assoc, List.append_assoc, List.append_assoc, skip_lineBreak, quote_append,
      skip_of_not_isBlank (by decide)] at heq
    exact absurd (List.cons.inj heq).1 (by decide)
  have hfields : (renderFields (level + 1) (f :: fs)).length ≤ fuel := by
    rw [render] at hlength
    simp only [List.length_append, List.length_cons] at hlength
    omega
  rw [hshape, readValue?_brace fuel hopen, h.fields (level + 1) level f fs rest hfields, Option.map_some]

theorem ReadsBack.value_succ (level : Nat) (v : Json) (rest : List Char) (hlength : (render level v).length ≤ fuel + 1)
    (hends : Ends rest) : readValue? (fuel + 1) (render level v ++ rest) = some (v, rest) := by
  cases v with
  | number n =>
    obtain ⟨c, cs, hdigits, hdigit⟩ := exists_toDigits_cons n
    have hread := readNumber?_toDigits n hends
    rw [hdigits, List.cons_append] at hread
    rw [render_number, hdigits, List.cons_append, readValue?_digit hdigit, hread, Option.map_some]
  | text s =>
    rw [render, quote_append, readValue?_quote, readText?_flatMap, Option.map_some, String.ofList_toList]
  | list xs =>
    cases xs with
    | nil =>
      rw [render, List.cons_append, List.cons_append, List.nil_append, readValue?, skip_of_not_isBlank (by decide)]
      rfl
    | cons x xs => exact h.list_succ level x xs rest hlength
  | object fs =>
    cases fs with
    | nil =>
      rw [render, List.cons_append, List.cons_append, List.nil_append, readValue?, skip_of_not_isBlank (by decide)]
      rfl
    | cons f fs => exact h.object_succ level f fs rest hlength

theorem ReadsBack.items_succ (level outer : Nat) (x : Json) (xs : List Json) (rest : List Char)
    (hlength : (renderItems level (x :: xs)).length ≤ fuel + 1) :
    readItems? (fuel + 1) (renderItems level (x :: xs) ++ (lineBreak outer ++ ']' :: rest)) = some (x :: xs, rest) := by
  rw [renderItems_cons, lineBreak] at hlength
  simp only [List.length_append, List.length_cons] at hlength
  have hends : Ends (renderMoreItems level xs ++ (lineBreak outer ++ ']' :: rest)) := by
    cases xs with
    | nil => exact ends_lineBreak outer _
    | cons y ys => exact ends_comma _
  have hvalue := h.value level x _ (by omega) hends
  rw [← readValue?_congr fuel (skip_lineBreak level _)] at hvalue
  rw [renderItems_cons, List.append_assoc, List.append_assoc]
  cases xs with
  | nil =>
    rw [renderMoreItems, List.nil_append] at hvalue ⊢
    refine readItems?_last hvalue ?_
    rw [skip_lineBreak, skip_of_not_isBlank (by decide)]
  | cons y ys =>
    have hmore : (renderItems level (y :: ys)).length ≤ fuel := by
      rw [renderMoreItems, List.length_cons] at hlength
      omega
    rw [renderMoreItems, List.cons_append] at hvalue ⊢
    rw [readItems?_more hvalue (skip_of_not_isBlank (by decide) _), h.items level outer y ys rest hmore,
      Option.map_some]

theorem ReadsBack.fields_succ (level outer : Nat) (f : String × Json) (fs : List (String × Json)) (rest : List Char)
    (hlength : (renderFields level (f :: fs)).length ≤ fuel + 1) :
    readFields? (fuel + 1) (renderFields level (f :: fs) ++ (lineBreak outer ++ '\x7d' :: rest)) =
      some (f :: fs, rest) := by
  obtain ⟨key, x⟩ := f
  rw [renderFields_cons, lineBreak] at hlength
  simp only [List.length_append, List.length_cons] at hlength
  have hends : Ends (renderMoreFields level fs ++ (lineBreak outer ++ '\x7d' :: rest)) := by
    cases fs with
    | nil => exact ends_lineBreak outer _
    | cons g gs => exact ends_comma _
  have hfield : ReadsField fuel (renderFields level ((key, x) :: fs) ++ (lineBreak outer ++ '\x7d' :: rest)) (key, x)
      (renderMoreFields level fs ++ (lineBreak outer ++ '\x7d' :: rest)) := by
    refine ⟨_, _, ' ' :: (render level x ++ (renderMoreFields level fs ++ (lineBreak outer ++ '\x7d' :: rest))), ?_,
      readText?_flatMap key.toList _, skip_of_not_isBlank (by decide) _, ?_⟩
    · rw [renderFields_cons, List.append_assoc, List.append_assoc, List.append_assoc, skip_lineBreak, quote_append,
        skip_of_not_isBlank (by decide)]
      simp only [List.cons_append]
    · have hblank : ∀ cs, skip (' ' :: cs) = skip cs := fun cs => List.dropWhile_cons_of_pos rfl
      rw [readValue?_congr fuel (hblank _)]
      exact h.value level x _ (by omega) hends
  cases fs with
  | nil =>
    refine readFields?_last hfield ?_
    rw [renderMoreFields, List.nil_append, skip_lineBreak, skip_of_not_isBlank (by decide)]
  | cons g gs =>
    have hmore : (renderFields level (g :: gs)).length ≤ fuel := by
      rw [renderMoreFields, List.length_cons] at hlength
      omega
    rw [renderMoreFields, List.cons_append] at hfield
    rw [readFields?_more hfield (skip_of_not_isBlank (by decide) _), h.fields level outer g gs rest hmore,
      Option.map_some]

end Step

theorem readsBack (fuel : Nat) : ReadsBack fuel := by
  induction fuel with
  | zero =>
    -- Nothing is written without any character.
    constructor
    · intro level v rest hlength
      obtain ⟨c, cs, hc, -⟩ := exists_render_head level v
      simp [hc] at hlength
    · intro level outer x xs rest hlength
      simp [renderItems_cons, lineBreak] at hlength
    · intro level outer f fs rest hlength
      simp [renderFields_cons, lineBreak] at hlength
  | succ fuel ih => exact ⟨ih.value_succ, ih.items_succ, ih.fields_succ⟩

/-- What was written is read back. -/
theorem read?_render (v : Json) : read? (render 0 v) = some v := by
  have hread := (readsBack (render 0 v).length).value 0 v [] (Nat.le_refl _) (by simp [Ends])
  rw [List.append_nil] at hread
  rw [read?, hread]
  rfl

end DocLint.Json
