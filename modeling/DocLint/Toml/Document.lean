import DocLint.Toml.Scalar

/-!
# TOML documents

A document is read in two steps: the text is cut into sections, each a header with the assignments below it,
and the sections are put into one table.
-/
namespace DocLint.Toml

/-- A key with the path before it, and its value. -/
structure Assignment where
  path : List String
  key : String
  value : Value

/-- The header of a section: none at the top of a document, a table, or one more table of an array. -/
inductive Header where
  | top
  | table (path : List String) (key : String)
  | element (path : List String) (key : String)

structure Section where
  header : Header
  assignments : List Assignment

/-! ## Values -/

/-- Blanks, comments and line breaks between the items of an array. -/
def skipArrayGap : Nat → List Char → Option (List Char)
  | 0, cs => some cs
  | fuel + 1, cs =>
    match skipBlanks cs with
    | '#' :: rest => do
      let rest ← newline? (rest.dropWhile isTextChar)
      skipArrayGap fuel rest
    | rest =>
      match newline? rest with
      | some rest => skipArrayGap fuel rest
      | none => some rest

/-- The items of an array after its bracket.  A comma may follow the last one. -/
def arrayItems (item : Reader Value) : Nat → Reader (List Value)
  | 0, _ => none
  | fuel + 1, cs => do
    match ← skipArrayGap cs.length cs with
    | ']' :: rest => some ([], rest)
    | cs => do
      let (v, rest) ← item cs
      match ← skipArrayGap rest.length rest with
      | ',' :: rest => do
        let (vs, rest) ← arrayItems item fuel rest
        some (v :: vs, rest)
      | ']' :: rest => some ([v], rest)
      | _ => none

/-- A key, an equals sign and a value. -/
def assignment (value : Reader Value) : Reader Assignment := fun cs => do
  let ((path, k), rest) ← key cs
  match rest with
  | '=' :: rest => do
    let (v, rest) ← value (skipBlanks rest)
    some (⟨path, k, v⟩, rest)
  | _ => none

/-- The assignments of a table between braces, at least one, through the closing brace. -/
def inlineAssignments (value : Reader Value) : Nat → Reader (List Assignment)
  | 0, _ => none
  | fuel + 1, cs => do
    let (a, rest) ← assignment value cs
    match skipBlanks rest with
    | ',' :: rest => do
      let (as, rest) ← inlineAssignments value fuel rest
      some (a :: as, rest)
    | '\x7d' :: rest => some ([a], rest)
    | _ => none

/-- Assignments one after another into a table. -/
def fill (d : Definition) (as : List Assignment) (es : Entries) : Option Entries :=
  as.foldlM (fun es a => es.insert a.path a.key a.value d) es

/-- A table after its opening brace. -/
def inlineTable (value : Reader Value) : Reader Value := fun cs =>
  match skipBlanks cs with
  | '\x7d' :: rest => some (.table .inline [], rest)
  | cs => do
    let (as, rest) ← inlineAssignments value cs.length cs
    let es ← fill .inline as []
    some (.table .inline es, rest)

/-- A value in which arrays and tables nest at most so deep. -/
def value : Nat → Reader Value
  | depth, '[' :: cs =>
    match depth with
    | 0 => none
    | depth + 1 => (arrayItems (value depth) (cs.length + 1) cs).map fun (vs, rest) => (.array vs, rest)
  | depth, '\x7b' :: cs =>
    match depth with
    | 0 => none
    | depth + 1 => inlineTable (value depth) cs
  | _, cs => scalar cs

/-! ## Sections -/

/-- The end of a line: blanks, a comment, and a line break or the end of the text. -/
def lineEnd? (cs : List Char) : Option (List Char) :=
  let rest :=
    match skipBlanks cs with
    | '#' :: rest => rest.dropWhile isTextChar
    | rest => rest
  if rest.isEmpty then some [] else newline? rest

def readAssignment : Reader Assignment := fun cs => do
  let (a, rest) ← assignment (value (depthLimit - 1)) cs
  let rest ← lineEnd? rest
  some (a, rest)

/-- A header after its opening bracket. -/
def readHeader : Reader Header
  | '[' :: cs => do
    let ((path, k), rest) ← key cs
    match rest with
    | ']' :: ']' :: rest => (lineEnd? rest).map fun rest => (.element path k, rest)
    | _ => none
  | cs => do
    let ((path, k), rest) ← key cs
    match rest with
    | ']' :: rest => (lineEnd? rest).map fun rest => (.table path k, rest)
    | _ => none

/-- The lines of a section that is open, and the sections after it. -/
def readLines : Nat → List Char → Option (List Assignment × List Section)
  | 0, _ => none
  | fuel + 1, cs =>
    match skipBlanks cs with
    | [] => some ([], [])
    | '[' :: rest => do
      let (next, rest) ← readHeader rest
      let (as, ss) ← readLines fuel rest
      some ([], ⟨next, as⟩ :: ss)
    | cs =>
      match lineEnd? cs with
      | some rest => readLines fuel rest
      | none => do
        let (a, rest) ← readAssignment cs
        let (as, ss) ← readLines fuel rest
        some (a :: as, ss)

/-- The sections of a document.  A byte order mark at its very start is passed over. -/
def sections? (cs : List Char) : Option (List Section) := do
  let cs := (Text.dropStart? ['\uFEFF'] cs).getD cs
  let (as, ss) ← readLines (cs.length + 1) cs
  some (⟨.top, as⟩ :: ss)

/-! ## The table of a document -/

/-- The table of a header, new or grown from one that was only passed through. -/
def placeTable (key : String) (as : List Assignment) (es : Entries) : Option Entries :=
  match es.lookup key with
  | none => do
    let inner ← fill .header as []
    some (es ++ [(key, .table .header inner)])
  | some (.table .implied inner) => do
    let inner ← fill .header as inner
    some (es.replace key (.table .header inner))
  | some _ => none

/-- One more table of an array of tables. -/
def placeElement (key : String) (as : List Assignment) (es : Entries) : Option Entries := do
  let inner ← fill .header as []
  match es.lookup key with
  | none => some (es ++ [(key, .tables [.table .header inner])])
  | some (.tables items) => some (es.replace key (.tables (items ++ [.table .header inner])))
  | some _ => none

def place (es : Entries) (s : Section) : Option Entries :=
  match s.header with
  | .top => fill .header s.assignments es
  | .table path k => Entries.update false (fun _ => placeTable k s.assignments) path .header es
  | .element path k => Entries.update false (fun _ => placeElement k s.assignments) path .header es

/-- The table that a document describes. -/
def parse? (cs : List Char) : Option Value := do
  let ss ← sections? cs
  let es ← ss.foldlM place []
  some (.table .header es)

end DocLint.Toml
