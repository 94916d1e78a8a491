/-!
# JSON texts

Values as a report needs them, and their text: two spaces for each level, one item a line, empty lists and objects
closed at once.  Control characters are escaped, everything else is written as it is.
-/
namespace DocLint

inductive Json where
  | number (n : Nat)
  | text (s : String)
  | list (items : List Json)
  | object (fields : List (String × Json))
  deriving Repr, Inhabited

namespace Json

def hexDigit (n : Nat) : Char := Nat.digitChar (n % 16)

/-- A character inside a quoted text. -/
def escape (c : Char) : List Char :=
  match c with
  | '\x22' => ['\\', '\x22']
  | '\\' => ['\\', '\\']
  | '\x08' => ['\\', 'b']
  | '\x0c' => ['\\', 'f']
  | '\n' => ['\\', 'n']
  | '\r' => ['\\', 'r']
  | '\t' => ['\\', 't']
  | c =>
    if c.toNat < 0x20 then ['\\', 'u', '0', '0', hexDigit (c.toNat / 16), hexDigit c.toNat]
    else [c]

def quote (s : String) : List Char := '\x22' :: s.toList.flatMap escape ++ ['\x22']

/-- A line break and the blanks of a level. -/
def lineBreak (level : Nat) : List Char := '\n' :: List.replicate (2 * level) ' '

mutual

/-- The text of a value that starts on a line of the given level. -/
def render (level : Nat) : Json → List Char
  | .number n => (toString n).toList
  | .text s => quote s
  | .list [] => ['[', ']']
  | .list (x :: xs) => '[' :: renderItems (level + 1) (x :: xs) ++ lineBreak level ++ [']']
  | .object [] => ['\x7b', '\x7d']
  | .object (f :: fs) =>
    '\x7b' :: renderFields (level + 1) (f :: fs) ++ lineBreak level ++ ['\x7d']

def renderItems (level : Nat) : List Json → List Char
  | [] => []
  | [x] => lineBreak level ++ render level x
  | x :: xs => lineBreak level ++ render level x ++ ',' :: renderItems level xs

def renderFields (level : Nat) : List (String × Json) → List Char
  | [] => []
  | [(key, x)] => lineBreak level ++ quote key ++ ':' :: ' ' :: render level x
  | (key, x) :: fs =>
    lineBreak level ++ quote key ++ ':' :: ' ' :: render level x ++ ',' :: renderFields level fs

end

end Json
end DocLint
