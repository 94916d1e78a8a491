import DocLint.Path
import DocLint.Stream
import DocLint.Token.Slice

/-!
# Languages

A language says which files are written in it and how their text becomes a stream.  Any text is a script; a
language with a stricter reader may refuse one.
-/
namespace DocLint

/-- Why and where a reader refuses a text. -/
structure UnexpectedInput where
  line : Nat
  column : Nat
  reason : String
  deriving DecidableEq, Repr

def UnexpectedInput.message (e : UnexpectedInput) : String :=
  s!"unexpected input at line {e.line}, column {e.column}: {e.reason}"

structure Language where
  name : String
  /-- The extensions of its files, without the dot. -/
  extensions : List String
  read : List Char → Except UnexpectedInput Stream

/-- The stream of a script. -/
def Stream.ofSource (source : List Char) : Stream := .ofTokens (lex (withoutByteOrderMark source))

namespace Language

def javaScript : Language where
  name := "javascript"
  extensions := ["js", "mjs", "cjs", "jsx"]
  read source := .ok (.ofSource source)

/-- The same language in files with other extensions. -/
def withExtensions (l : Language) (extensions : List String) : Language := { l with extensions }

/-- Is a file written in the language? -/
def handles (l : Language) (p : Path) : Bool :=
  p.extension?.any fun e => l.extensions.contains (String.ofList e)

end Language
end DocLint
