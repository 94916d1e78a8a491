import DocLint.Environment
import DocLint.FileTree
import DocLint.Ignore.Rules

/-!
# The ignore file of a user

Apart from the ignore files of a project there is one of the user, for all repositories.  A setting names it; the
files with settings are read by bytes, and of them only the lines with this setting matter.
-/
namespace DocLint.Ignore.UserFile

open DocLint.Text

/-! ## The setting -/

def isSpace (b : UInt8) : Bool := b = 0x20 || (0x09 ≤ b && b ≤ 0x0D)

def skipSpaces (bs : List UInt8) : List UInt8 := bs.dropWhile isSpace

def quote : UInt8 := 0x22

/-- Does a line end after some of the spaces at the beginning? -/
def endsLine (bs : List UInt8) : Bool :=
  (skipSpaces bs).isEmpty || (bs.takeWhile isSpace).contains 0x0A

/-- Does a value end here?  A quote may follow, with spaces around it. -/
def endsValue (bs : List UInt8) : Bool :=
  endsLine bs ||
    match skipSpaces bs with
    | b :: rest => b = quote && endsLine rest
    | [] => false

/-- The shortest value at the beginning: some bytes that are no spaces, up to the end of the line. -/
def value? (bs : List UInt8) : Option (List UInt8) :=
  (List.range (bs.takeWhile fun b => !isSpace b).length).findSome? fun n =>
    if endsValue (bs.drop (n + 1)) then some (bs.take (n + 1)) else none

/-- What follows a word, in capitals or not. -/
def afterWord? : List Char → List UInt8 → Option (List UInt8)
  | [], bs => some bs
  | _ :: _, [] => none
  | c :: cs, b :: bs => if (Char.ofNat b.toNat).toLower = c then afterWord? cs bs else none

/-- The value of the setting, if it stands at the beginning.  It may be quoted. -/
def settingAt? (bs : List UInt8) : Option (List UInt8) := do
  let bs ← afterWord? "excludesfile".toList (skipSpaces bs)
  let bs ← afterWord? ['='] (skipSpaces bs)
  let bs := skipSpaces bs
  (match bs with
    | b :: rest => if b = quote then value? (skipSpaces rest) else none
    | [] => none) <|> value? bs

/-- What follows each line feed. -/
def afterLineFeeds : List UInt8 → List (List UInt8)
  | [] => []
  | b :: bs => if b = 0x0A then bs :: afterLineFeeds bs else afterLineFeeds bs

/-- The value of the setting in a file: the first that stands at the beginning of a line. -/
def setting? (content : ByteArray) : Option (List Char) :=
  let bs := content.toList
  ((bs :: afterLineFeeds bs).findSome? settingAt?).bind fun value =>
    (String.fromUTF8? ⟨value.toArray⟩).map String.toList

/-! ## The file -/

/-- A path with the home directory in place of every tilde. -/
def expand (home : Option Path) (text : List Char) : Path :=
  match home with
  | some home => ⟨text.flatMap fun c => if c = '~' then home.chars else [c]⟩
  | none => ⟨text⟩

/-- The files with settings, the preferred one first. -/
def settingsFiles (e : Environment) : List Path :=
  (e.path? "GIT_CONFIG_GLOBAL" <|> e.home?.map (· / Path.ofString ".gitconfig")).toList ++
    (e.settingsDirectory?.map (· / Path.ofString "git/config")).toList

/-- Where the ignore file is without a setting. -/
def defaultPath? (e : Environment) : Option Path :=
  e.settingsDirectory?.map (· / Path.ofString "git/ignore")

/-- Where the ignore file is. -/
def path? (t : FileTree) (e : Environment) : Option Path :=
  ((settingsFiles e).findSome? fun file =>
    ((t.readBytes file).toOption.bind setting?).map (expand e.home?)) <|> defaultPath? e

/-- The rules of the ignore file, if it is there. -/
def rules (t : FileTree) (e : Environment) : List Rule :=
  match (path? t e).map t.readBytes with
  | some (.ok content) => rulesOf content
  | _ => []

end DocLint.Ignore.UserFile
