/-!
# TOML values

Values as a document builds them up.  A table remembers how it came to be, because that decides whether it may
still grow, and an array of tables is kept apart from an array that was written out.
-/
namespace DocLint.Toml

/-- How a table came to be: by a header of its own, by a header or a dotted key that passes through it, or
written out between braces. -/
inductive Definition where
  | header
  | implied
  | dotted
  | inline
  deriving DecidableEq, Repr

inductive Value where
  | string (text : String)
  | integer (value : Int)
  | float (text : String)
  | boolean (value : Bool)
  | datetime (text : String)
  | array (items : List Value)
  | tables (items : List Value)
  | table (definition : Definition) (entries : List (String × Value))
  deriving Repr, Inhabited

abbrev Entries := List (String × Value)

namespace Entries

/-- The entries with another value for a key. -/
def replace (es : Entries) (key : String) (v : Value) : Entries :=
  es.map fun e => if e.1 = key then (key, v) else e

/-- The definition of a table that is passed through for the first time. -/
def passing (dotted : Bool) : Definition := if dotted then .dotted else .implied

/-- May a table that is there already be passed through?  One between braces never grows; one with a header
of its own does not grow by dotted keys. -/
def isPassable (dotted : Bool) : Definition → Bool
  | .inline => false
  | .header => !dotted
  | .implied | .dotted => true

/-- Follows a path from a table, makes the tables on the way that are missing, and changes the table at its
end.  In an array of tables the last one is meant. -/
def update (dotted : Bool) (change : Definition → Entries → Option Entries) :
    List String → Definition → Entries → Option Entries
  | [], d, es => change d es
  | key :: path, _, es =>
    match es.lookup key with
    | none => do
      let inner ← update dotted change path (passing dotted) []
      some (es ++ [(key, .table (passing dotted) inner)])
    | some (.table d inner) =>
      if isPassable dotted d then do
        let inner ← update dotted change path d inner
        some (replace es key (.table d inner))
      else none
    | some (.tables items) =>
      match items.getLast? with
      | some (.table d last) => do
        let last ← update dotted change path d last
        some (replace es key (.tables (items.dropLast ++ [.table d last])))
      | _ => none
    | some _ => none

/-- A key with its value, new in a table.  The path of a dotted key leads to a table that only dotted keys
have made. -/
def insert (path : List String) (key : String) (v : Value) (d : Definition) (es : Entries) :
    Option Entries :=
  update true
    (fun d es =>
      if (d == .dotted) == path.isEmpty || (es.lookup key).isSome then none
      else some (es ++ [(key, v)]))
    path d es

end Entries
end DocLint.Toml
