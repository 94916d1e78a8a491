import DocLint.Text
import DocLint.Toml.Value

/-!
# TOML scalars

Strings, numbers, dates and keys.  A reader takes the front of a text and gives what it read with the rest of
the text; `none` means that the text is refused, since no construct is ever tried in two ways.
-/
namespace DocLint.Toml

open DocLint.Text

/-- What was read, and the rest. -/
abbrev Reader (α : Type) := List Char → Option (α × List Char)

def isBlank (c : Char) : Bool := c = ' ' || c = '\t'

def skipBlanks (cs : List Char) : List Char := cs.dropWhile isBlank

/-- A character that may stand in a comment or a string: no control character but the tab. -/
def isTextChar (c : Char) : Bool := c = '\t' || (' ' ≤ c && c != '\x7f')

/-- What follows a line break, if the text starts with one. -/
def newline? : List Char → Option (List Char)
  | '\n' :: cs => some cs
  | '\r' :: '\n' :: cs => some cs
  | _ => none

/-! ## Strings -/

def hexValue? (c : Char) : Option Nat :=
  if c.isDigit then some (c.toNat - '0'.toNat)
  else if 'a' ≤ c && c ≤ 'f' then some (c.toNat - 'a'.toNat + 10)
  else if 'A' ≤ c && c ≤ 'F' then some (c.toNat - 'A'.toNat + 10)
  else none

/-- A character by the hexadecimal digits of its code point. -/
def charOfHex? (digits : List Char) : Option Char := do
  let values ← digits.mapM hexValue?
  let code := values.foldl (fun n d => 16 * n + d) 0
  if code.isValidChar then some (Char.ofNat code) else none

def hexEscape (width : Nat) : Reader Char := fun cs => do
  let c ← if (cs.take width).length = width then charOfHex? (cs.take width) else none
  some (c, cs.drop width)

/-- What follows a backslash. -/
def escape : Reader Char
  | 'b' :: cs => some ('\x08', cs)
  | 't' :: cs => some ('\t', cs)
  | 'n' :: cs => some ('\n', cs)
  | 'f' :: cs => some ('\x0c', cs)
  | 'r' :: cs => some ('\r', cs)
  | '\x22' :: cs => some ('\x22', cs)
  | '\\' :: cs => some ('\\', cs)
  | 'u' :: cs => hexEscape 4 cs
  | 'U' :: cs => hexEscape 8 cs
  | _ => none

/-- The remainder of a string on one line, after its opening quote.  Every step takes a character, so a fuel
of the text's length never runs out. -/
def basicChars : Nat → Reader (List Char)
  | 0, _ => none
  | fuel + 1, cs =>
    match cs with
    | '\x22' :: rest => some ([], rest)
    | '\\' :: rest => do
      let (c, rest) ← escape rest
      let (s, rest) ← basicChars fuel rest
      some (c :: s, rest)
    | c :: rest =>
      if isTextChar c then do
        let (s, rest) ← basicChars fuel rest
        some (c :: s, rest)
      else none
    | [] => none

/-- The remainder of a string on one line that knows no escapes. -/
def literalChars : Reader (List Char)
  | '\x27' :: rest => some ([], rest)
  | c :: rest =>
    if isTextChar c then do
      let (s, rest) ← literalChars rest
      some (c :: s, rest)
    else none
  | [] => none

/-- A line break at the very beginning of a text over several lines is no part of it. -/
def dropFirstNewline (cs : List Char) : List Char := (newline? cs).getD cs

/-- What follows an escaped line break: all blanks and line breaks are skipped. -/
def skipBlankLines : Nat → List Char → List Char
  | 0, cs => cs
  | fuel + 1, cs =>
    match newline? (skipBlanks cs) with
    | some rest => skipBlankLines fuel rest
    | none => skipBlanks cs

/-- What follows three quotes or more: up to two of them belong to the text before. -/
def closingQuotes (quote : Char) (cs : List Char) : Option (List Char × List Char) :=
  let quotes := cs.takeWhile (· == quote)
  if 3 ≤ quotes.length && quotes.length ≤ 5 then
    some (quotes.drop 3, cs.drop quotes.length)
  else none

/-- The remainder of a text over several lines, after its three opening quotes.  With `escapes`, a backslash
starts an escape, or joins lines if nothing but blanks follows it on its line. -/
def multilineChars (quote : Char) (escapes : Bool) : Nat → Reader (List Char)
  | 0, _ => none
  | fuel + 1, cs =>
    match newline? cs with
    | some rest => do
      let (s, rest) ← multilineChars quote escapes fuel rest
      some ('\n' :: s, rest)
    | none =>
      match cs with
      | [] => none
      | c :: rest =>
        if c = quote then
          if [quote, quote].isPrefixOf rest then closingQuotes quote cs
          else do
            let (s, rest) ← multilineChars quote escapes fuel rest
            some (c :: s, rest)
        else if c = '\\' && escapes then
          match newline? (skipBlanks rest) with
          | some next => multilineChars quote escapes fuel (skipBlankLines next.length next)
          | none => do
            let (c, rest) ← escape rest
            let (s, rest) ← multilineChars quote escapes fuel rest
            some (c :: s, rest)
        else if isTextChar c then do
          let (s, rest) ← multilineChars quote escapes fuel rest
          some (c :: s, rest)
        else none

def multiline (quote : Char) (escapes : Bool) : Reader (List Char) := fun cs =>
  let body := dropFirstNewline cs
  multilineChars quote escapes (body.length + 1) body

def basicString : Reader (List Char) := fun cs => basicChars (cs.length + 1) cs

/-- A string of any of the four forms. -/
def string : Reader (List Char)
  | '\x22' :: '\x22' :: '\x22' :: cs => multiline '\x22' true cs
  | '\x27' :: '\x27' :: '\x27' :: cs => multiline '\x27' false cs
  | '\x22' :: cs => basicString cs
  | '\x27' :: cs => literalChars cs
  | _ => none

/-! ## Keys -/

def isBareKeyChar (c : Char) : Bool := c.isAlphanum || c = '_' || c = '-'

def simpleKey : Reader String
  | '\x22' :: cs => (basicString cs).map fun (s, rest) => (String.ofList s, rest)
  | '\x27' :: cs => (literalChars cs).map fun (s, rest) => (String.ofList s, rest)
  | cs =>
    let key := cs.takeWhile isBareKeyChar
    if key.isEmpty then none else some (String.ofList key, cs.drop key.length)

/-- The parts of a key between points, with blanks around each. -/
def keyParts : Nat → Reader (List String)
  | 0, _ => none
  | fuel + 1, cs => do
    let (key, rest) ← simpleKey (skipBlanks cs)
    match skipBlanks rest with
    | '.' :: rest => do
      let (keys, rest) ← keyParts fuel rest
      some (key :: keys, rest)
    | rest => some ([key], rest)

/-- Arrays, tables between braces and the parts of a key nest less deep than this. -/
def depthLimit : Nat := 80

/-- A key: the path before its last part, and that part. -/
def key : Reader (List String × String) := fun cs => do
  let (keys, rest) ← keyParts (depthLimit - 1) cs
  let last ← keys.getLast?
  some ((keys.dropLast, last), rest)

/-! ## Numbers -/

/-- Further digits of a number, each with at most one underscore before it. -/
def moreDigits (isDigit : Char → Bool) : Reader (List Char)
  | '_' :: c :: cs =>
    if isDigit c then do
      let (ds, rest) ← moreDigits isDigit cs
      some (c :: ds, rest)
    else none
  | c :: cs =>
    if isDigit c then do
      let (ds, rest) ← moreDigits isDigit cs
      some (c :: ds, rest)
    else if c = '_' then none
    else some ([], c :: cs)
  | [] => some ([], [])

/-- Digits, at least one; zeros may lead. -/
def digits (isDigit : Char → Bool) : Reader (List Char)
  | c :: cs =>
    if isDigit c then do
      let (ds, rest) ← moreDigits isDigit cs
      some (c :: ds, rest)
    else none
  | [] => none

/-- A whole number without sign; a zero leads only by itself. -/
def wholeDigits : Reader (List Char)
  | '0' :: cs => some (['0'], cs)
  | cs => digits Char.isDigit cs

def natOfDigits (base : Nat) (ds : List Char) : Nat :=
  ds.foldl (fun n c => base * n + (hexValue? c).getD 0) 0

/-- Integers have 64 bits. -/
def integer? (i : Int) : Option Value :=
  if -9223372036854775808 ≤ i ∧ i ≤ 9223372036854775807 then some (.integer i) else none

def sign : List Char → Option Char × List Char
  | '+' :: cs => (some '+', cs)
  | '-' :: cs => (some '-', cs)
  | cs => (none, cs)

/-- The digits after an exponent's letter, if there is one, with its sign. -/
def exponent? : List Char → Option (Option Int × List Char)
  | c :: cs =>
    if c = 'e' || c = 'E' then do
      let (s, cs) := sign cs
      let (ds, rest) ← digits Char.isDigit cs
      let n : Int := natOfDigits 10 ds
      some (some (if s = some '-' then -n else n), rest)
    else some (none, c :: cs)
  | [] => some (none, [])

/-- Is `digits · 10 ^ exponent` at least the smallest number that rounds beyond the largest double?  Far from
that number the count of digits before the point decides. -/
def overflowsDouble (digits : List Char) (exponent : Int) : Bool :=
  let significant := digits.dropWhile (· == '0')
  let places : Int := significant.length + exponent
  if significant.isEmpty || places < 300 then false
  else if places > 320 then true
  else
    let limit := (Nat.pow 2 54 - 1) * Nat.pow 2 970
    let n := natOfDigits 10 significant
    if 0 ≤ exponent then limit ≤ n * Nat.pow 10 exponent.toNat
    else limit * Nat.pow 10 (-exponent).toNat ≤ n

/-- A number with a fraction or an exponent.  Beyond the largest double it is refused, unless negative. -/
def float? (s : Option Char) (digits : List Char) (exponent : Int) : Option Value :=
  if s != some '-' && overflowsDouble digits exponent then none
  else some (.float (String.ofList (s.toList ++ digits ++ 'e' :: (toString exponent).toList)))

/-- What follows the whole digits of a number in base ten. -/
def decimalRest (s : Option Char) (whole : List Char) : Reader Value
  | '.' :: cs => do
    let (fraction, rest) ← digits Char.isDigit cs
    let (e, rest) ← exponent? rest
    let v ← float? s (whole ++ fraction) (e.getD 0 - fraction.length)
    some (v, rest)
  | cs => do
    let (e, rest) ← exponent? cs
    match e with
    | some e =>
      let v ← float? s whole e
      some (v, rest)
    | none =>
      let n : Int := natOfDigits 10 whole
      let v ← integer? (if s = some '-' then -n else n)
      some (v, rest)

def radixInteger (base : Nat) (isDigit : Char → Bool) : Reader Value := fun cs => do
  let (ds, rest) ← digits isDigit cs
  let v ← integer? (natOfDigits base ds)
  some (v, rest)

def number : Reader Value
  | '0' :: 'x' :: cs => radixInteger 16 (fun c => (hexValue? c).isSome) cs
  | '0' :: 'o' :: cs => radixInteger 8 (fun c => '0' ≤ c && c ≤ '7') cs
  | '0' :: 'b' :: cs => radixInteger 2 (fun c => c = '0' || c = '1') cs
  | cs =>
    match sign cs with
    | (_, 'i' :: 'n' :: 'f' :: rest) => some (.float "inf", rest)
    | (_, 'n' :: 'a' :: 'n' :: rest) => some (.float "nan", rest)
    | (s, cs) => do
      let (whole, rest) ← wholeDigits cs
      decimalRest s whole rest

/-! ## Dates and times -/

/-- Two digits whose number lies in a range. -/
def twoDigits (lo hi : Nat) : Reader Nat
  | a :: b :: cs =>
    let n := natOfDigits 10 [a, b]
    if a.isDigit && b.isDigit && lo ≤ n && n ≤ hi then some (n, cs) else none
  | _ => none

def daysInMonth (year month : Nat) : Nat :=
  if month = 2 then
    if year % 4 = 0 ∧ (year % 100 ≠ 0 ∨ year % 400 = 0) then 29 else 28
  else if month = 4 ∨ month = 6 ∨ month = 9 ∨ month = 11 then 30
  else 31

/-- What follows a date. -/
def date? (year : Nat) (cs : List Char) : Option (List Char) := do
  let (month, rest) ← twoDigits 1 12 cs
  match rest with
  | '-' :: rest => do
    let (_, rest) ← twoDigits 1 (daysInMonth year month) rest
    some rest
  | _ => none

/-- What follows minutes, seconds and a fraction of a second, after the hour. -/
def timeRest? (cs : List Char) : Option (List Char) := do
  let (_, rest) ← twoDigits 0 59 cs
  match rest with
  | ':' :: rest => do
    let (_, rest) ← twoDigits 0 60 rest
    match rest with
    | '.' :: rest =>
      let fraction := rest.takeWhile Char.isDigit
      if fraction.isEmpty then none else some (rest.drop fraction.length)
    | rest => some rest
  | _ => none

/-- What follows an offset from universal time, which may be missing. -/
def offset? : List Char → Option (List Char)
  | 'Z' :: cs | 'z' :: cs => some cs
  | c :: cs =>
    if c = '+' || c = '-' then do
      let (_, rest) ← twoDigits 0 23 cs
      match rest with
      | ':' :: rest => (twoDigits 0 59 rest).map Prod.snd
      | _ => none
    else some (c :: cs)
  | [] => some []

/-- What follows a time of day after a date, which may be missing. -/
def timeAfterDate? : List Char → Option (List Char)
  | d :: cs =>
    if d = 'T' || d = 't' || d = ' ' then
      match twoDigits 0 23 cs with
      | some (_, ':' :: rest) => timeRest? rest >>= offset?
      | _ => some (d :: cs)
    else some (d :: cs)
  | [] => some []

/-- The rest of a text that starts with a date or a time, if it looks like one at all. -/
def datetime? (cs : List Char) : Option (Option (List Char)) :=
  match cs with
  | a :: b :: c :: d :: '-' :: rest =>
    if [a, b, c, d].all Char.isDigit then
      some (date? (natOfDigits 10 [a, b, c, d]) rest >>= timeAfterDate?)
    else none
  | a :: b :: ':' :: rest =>
    if (twoDigits 0 23 [a, b]).isSome then some (timeRest? rest) else none
  | _ => none

def numberOrDate : Reader Value := fun cs =>
  match datetime? cs with
  | some rest? => rest?.map fun rest =>
      (.datetime (String.ofList (cs.take (cs.length - rest.length))), rest)
  | none => number cs

/-- A value that is neither an array nor a table. -/
def scalar : Reader Value
  | 't' :: 'r' :: 'u' :: 'e' :: cs => some (.boolean true, cs)
  | 'f' :: 'a' :: 'l' :: 's' :: 'e' :: cs => some (.boolean false, cs)
  | c :: cs =>
    if c = '\x22' || c = '\x27' then
      (string (c :: cs)).map fun (s, rest) => (.string (String.ofList s), rest)
    else numberOrDate (c :: cs)
  | [] => none

end DocLint.Toml
