import DocLint.Message
import DocLint.Severity
import DocLint.Tag

/-!
# Tag rules

A tag rule names tags that are required, groups of rivaling tags of which a block has at most one, and an
anchor that stands before its rivals.  It looks at its relevant tags only, and every tag it names is one of
them: options that break this are refused when the rule is built.
-/
namespace DocLint

/-- What a tag rule is built from. -/
structure TagOptions where
  required : List String := []
  rivaling : List (List String) := []
  relevant : List String := []
  rivalingMandatory : Bool := false
  anchor : Option String := none
  deriving DecidableEq, Repr, Inhabited

/-- One step in which options are given.  Tags and groups are added to those given before, while of the other two the
last one counts. -/
inductive TagSetting where
  | required (tags : List String)
  | rivaling (group : List String)
  | relevant (tags : List String)
  | rivalingMandatory (mandatory : Bool)
  | anchor (tag : String)
  deriving DecidableEq, Repr

namespace TagOptions

def set (o : TagOptions) : TagSetting → TagOptions
  | .required tags => { o with required := o.required ++ tags }
  | .rivaling group => { o with rivaling := o.rivaling ++ [group] }
  | .relevant tags => { o with relevant := o.relevant ++ tags }
  | .rivalingMandatory mandatory => { o with rivalingMandatory := mandatory }
  | .anchor tag => { o with anchor := some tag }

/-- The options that are given step by step. -/
def ofSettings (settings : List TagSetting) : TagOptions := settings.foldl set {}

/-- The steps in which a table gives its options. -/
def settings (o : TagOptions) : List TagSetting :=
  .relevant o.relevant :: .required o.required :: .rivalingMandatory o.rivalingMandatory ::
    (o.rivaling.map .rivaling ++ o.anchor.toList.map .anchor)

end TagOptions

structure TagRule where
  required : List TagName
  rivaling : List (List TagName)
  /-- In the order of names, each once. -/
  relevant : List String
  rivalingMandatory : Bool
  anchor : Option TagName
  deriving DecidableEq, Repr

inductive TagRole where
  | required
  | rivaling
  | anchor
  deriving DecidableEq, Repr

def TagRole.text : TagRole → String
  | .required => "required"
  | .rivaling => "rivaling"
  | .anchor => "anchor"

inductive TagRuleError where
  | invalidTagName (name : String)
  | notRelevant (role : TagRole) (tag : String)
  | emptyRivalGroup (index : Nat)
  deriving DecidableEq, Repr

def TagRuleError.message : TagRuleError → String
  | .invalidTagName name => s!"invalid tag name `{name}`: expected `@` followed by a word"
  | .notRelevant role tag => s!"{role.text} tag `{tag}` is not listed in the relevant tags"
  | .emptyRivalGroup index => s!"rivaling group {index} is empty"

namespace TagRule

/-- A name into a list that is in order, unless it is there already. -/
def insertName (name : String) : List String → List String
  | [] => [name]
  | n :: ns =>
    match compare name n with
    | .lt => name :: n :: ns
    | .eq => n :: ns
    | .gt => n :: insertName name ns

/-- The distinct members of a list, each where it is met first. -/
def distinct {α : Type} [DecidableEq α] (xs : List α) : List α :=
  xs.foldl (fun seen x => if x ∈ seen then seen else seen ++ [x]) []

def checkName (name : String) : Except TagRuleError TagName :=
  match TagName.ofText? name with
  | some tag => .ok tag
  | none => .error (.invalidTagName name)

/-- A name in one of the roles, which has to be among the relevant ones. -/
def checkRole (relevant : List String) (role : TagRole) (name : String) :
    Except TagRuleError TagName := do
  let tag ← checkName name
  if relevant.contains name then .ok tag else .error (.notRelevant role name)

/-- Rivaling groups, the first of which has the given index. -/
def checkGroups (relevant : List String) :
    Nat → List (List String) → Except TagRuleError (List (List TagName))
  | _, [] => .ok []
  | index, group :: groups => do
    let members ← group.mapM (checkRole relevant .rivaling)
    if members.isEmpty then .error (.emptyRivalGroup index)
    else
      let rest ← checkGroups relevant (index + 1) groups
      .ok (distinct members :: rest)

/-- The rule that some options describe.  The relevant tags are checked first, then the required ones, the
groups one by one, and the anchor. -/
def build (o : TagOptions) : Except TagRuleError TagRule := do
  let names ← o.relevant.mapM checkName
  let relevant := names.foldl (fun ns n => insertName n.text ns) []
  let required ← o.required.mapM (checkRole relevant .required)
  let rivaling ← checkGroups relevant 0 o.rivaling
  let anchor ← o.anchor.mapM (checkRole relevant .anchor)
  .ok ⟨distinct required, rivaling, relevant, o.rivalingMandatory, anchor⟩

inductive Finding where
  | missingTag (tag : TagName)
  | rivalConflict (group : List TagName)
  | rivalMissing (group : List TagName)
  | anchorOrder (anchor : TagName) (rivals : List TagName)
  deriving DecidableEq, Repr

def Finding.severity : Finding → Severity
  | .anchorOrder .. => .warning
  | _ => .error

def Finding.template : Finding → String
  | .missingTag _ => "Missing required tag %s."
  | .rivalConflict _ => "Got several of the rivaling tags %s. There should be only one."
  | .rivalMissing _ => "You need at least one of these tags: %s."
  | .anchorOrder .. => "The %s tag should be in front of any %s tag."

def Finding.args : Finding → List String
  | .missingTag tag => [tag.text]
  | .rivalConflict group | .rivalMissing group => [TagName.listText group]
  | .anchorOrder anchor rivals => [anchor.text, TagName.listText rivals]

def Finding.message (f : Finding) : String := Message.render f.template f.args

variable (r : TagRule)

/-- One finding for each required tag that is absent. -/
def missing (os : Occurrences) : List Finding :=
  (r.required.filter fun t => !os.contains t.text).map .missingTag

/-- A group with several members present, or, if one is mandatory, with none. -/
def checkGroup (os : Occurrences) (group : List TagName) : List Finding :=
  match (group.filter fun t => os.contains t.text).length with
  | 0 => if r.rivalingMandatory then [.rivalMissing group] else []
  | 1 => []
  | _ => [.rivalConflict group]

/-- The rivals of the anchor that are present. -/
def presentRivals (os : Occurrences) (anchor : TagName) : List TagName :=
  r.rivaling.flatten.filter fun t => t != anchor && os.contains t.text

/-- A rival that comes before the anchor. -/
def checkAnchor (os : Occurrences) : List Finding :=
  match r.anchor with
  | none => []
  | some anchor =>
    let rivals := r.presentRivals os anchor
    match os.first? anchor.text, (rivals.filterMap fun t => os.first? t.text).min? with
    | some pos, some earliest => if pos > earliest then [.anchorOrder anchor rivals] else []
    | _, _ => []

/-- What is wrong with some occurrences: required tags, then groups, then order. -/
def evaluate (os : Occurrences) : List Finding :=
  r.missing os ++ r.rivaling.flatMap (r.checkGroup os) ++ r.checkAnchor os

def checkBlock (b : Block) : List Finding := r.evaluate (Occurrences.ofBlock r.relevant b)

end TagRule
end DocLint
