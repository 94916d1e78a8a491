import DocLint.Command.Arguments
import DocLint.Config.Source
import DocLint.Project

/-!
# What a run looks at

A run reads the directory or file that it checks, configurations, and in the directories above it the files that
end the search for a configuration or tell what to ignore.  Some of these lead to others: a setting to the ignore
file of the user, the file of a working copy to its repository.  Nothing else can change what a run does.
-/
namespace DocLint

structure Footprint where
  /-- Directories and files of which everything counts. -/
  walked : List Path := []
  /-- Files and directories that count by themselves. -/
  watched : List Path := []
  deriving DecidableEq, Repr

namespace Footprint

/-- The names that count in a directory above the one that is checked. -/
def landmarks : List Path :=
  ConfigSource.names ++ ConfigSource.rootMarkers ++
    Repository.markers.map Path.mk ++
    [.ofString ".ignore", .ofString ".gitignore", .ofString ".git/info/exclude"]

def ofRequest (e : Environment) (working : Path) : Request → Footprint
  | .run ⟨_, config, .check path ..⟩ => {
      walked := [working / path]
      watched :=
        (config.map (working / ·)).toList ++
        (e.userDirectory?.map fun d => working / d / ConfigSource.userFileName).toList ++
        (Ignore.UserFile.settingsFiles e).map (working / ·) ++
        (working / path).ancestors.flatMap fun d => landmarks.map (d / ·) }
  | .run ⟨_, _, .init _⟩ => { watched := ConfigSource.names.map (working / ·) }
  | _ => {}

/-- Where the file of a working copy leads: to what tells the common directory, and to the rules in there. -/
def ofWorkingCopy (t : FileTree) (place : Place) : List Path :=
  ((Repository.linked? t (Place.path place)).map Repository.commonFile).toList ++
    (Repository.excludeFile? t place.dropLast).toList

/-- Where the files of a tree lead. -/
def leads (t : FileTree) (e : Environment) : List Path :=
  (Ignore.UserFile.path? t e).toList ++
    (t.nodes.filter fun n => n.1.getLast? = some Repository.dataName).flatMap fun n =>
      ofWorkingCopy t n.1

end Footprint
end DocLint
