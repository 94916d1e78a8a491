import DocLint.Project
import DocLint.Proofs.Components

/-!
# Reported paths

A file is reported as seen from the root of its project, and by its full path if it is not below the root.  Whatever
the spelling of the root and of the file, the reported path leads back to the file, and no two files are reported alike.
Only the root itself is different: it is reported by its name, which leads back to it if it is a file.
-/
namespace DocLint.Project

open DocLint.Text

variable {p : Project} {q r : Path}

/-- Below the root, the components of the root are left out. -/
theorem relative_of_below {rest : Path} (h : Path.below? p.root q = some rest)
    (hne : q.sameComponents p.root = false) :
    p.relative q = rest ∧ q.components = p.root.components ++ rest.components := by
  have hcomponents := Path.components_of_below? h
  have hrest : rest.chars ≠ [] := by
    intro hnil
    rw [Path.components_eq_nil_iff.2 hnil, List.append_nil] at hcomponents
    simp [Path.sameComponents, hcomponents] at hne
  refine ⟨?_, hcomponents⟩
  rw [relative, h]
  exact if_neg hrest

theorem relative_of_not_below (h : Path.below? p.root q = none) : p.relative q = q := by
  rw [relative, h]

section Absolute

variable (hroot : p.root.isAbsolute = true) (hq : q.isAbsolute = true) (hne : q.sameComponents p.root = false)
include hroot hq hne

/-- The reported path, seen from the root, has the components of the file. -/
theorem components_root_join_relative : (p.root / p.relative q).components = q.components := by
  cases hbelow : Path.below? p.root q with
  | none => rw [relative_of_not_below hbelow, Path.join_of_isAbsolute _ hq]
  | some rest =>
    obtain ⟨hrelative, hcomponents⟩ := relative_of_below hbelow hne
    obtain ⟨hrest, hnamed⟩ := Path.named_of_below? hroot hbelow
    have hchars : p.root.chars ≠ [] := by
      intro hnil
      simp [Path.isAbsolute, hnil] at hroot
    rw [hrelative, Path.components_join hchars hrest, hnamed, hcomponents]

theorem sameComponents_sourcePath_relative (hfile : p.tree.isFile p.root = false) :
    (p.sourcePath (p.relative q)).sameComponents q = true := by
  rw [sourcePath, if_neg (by simp [hfile]), Path.sameComponents, components_root_join_relative hroot hq hne]
  exact decide_eq_true rfl

end Absolute

/-- The reported path tells whether a file is below the root: it is relative if and only if the file is. -/
theorem isAbsolute_relative (hroot : p.root.isAbsolute = true) (hq : q.isAbsolute = true)
    (hne : q.sameComponents p.root = false) : (p.relative q).isAbsolute = (Path.below? p.root q).isNone := by
  cases hbelow : Path.below? p.root q with
  | none => rw [relative_of_not_below hbelow, hq, Option.isNone_none]
  | some rest => rw [(relative_of_below hbelow hne).1, (Path.named_of_below? hroot hbelow).1, Option.isNone_some]

theorem components_relative_inj (hroot : p.root.isAbsolute = true) (hq : q.isAbsolute = true) (hr : r.isAbsolute = true)
    (hqne : q.sameComponents p.root = false) (hrne : r.sameComponents p.root = false)
    (h : (p.relative q).components = (p.relative r).components) : q.components = r.components := by
  -- The beginning of the reported paths tells that both files are below the root, or neither is.
  have hsame : (p.relative q).isAbsolute = (p.relative r).isAbsolute := by
    rw [Bool.eq_iff_iff, ← Path.root_mem_components_iff, ← Path.root_mem_components_iff, h]
  rw [isAbsolute_relative hroot hq hqne, isAbsolute_relative hroot hr hrne] at hsame
  cases hqbelow : Path.below? p.root q with
  | none =>
    cases hrbelow : Path.below? p.root r with
    | none => rwa [relative_of_not_below hqbelow, relative_of_not_below hrbelow] at h
    | some s => simp [hqbelow, hrbelow] at hsame
  | some s =>
    cases hrbelow : Path.below? p.root r with
    | none => simp [hqbelow, hrbelow] at hsame
    | some u =>
      obtain ⟨hqs, hqcomponents⟩ := relative_of_below hqbelow hqne
      obtain ⟨hru, hrcomponents⟩ := relative_of_below hrbelow hrne
      rw [hqs, hru] at h
      rw [hqcomponents, hrcomponents, h]

/-- The reported path of a file other than the root leads back to the file, and is the reported path of no other file.
A root that is a file is led back to, too. -/
theorem sourcePath_relative (p : Project) (hroot : p.root.isAbsolute = true) :
    (∀ q : Path, q.isAbsolute = true → p.tree.isFile p.root = false → q.sameComponents p.root = false →
      (p.sourcePath (p.relative q)).sameComponents q = true) ∧
    (p.tree.isFile p.root = true → p.sourcePath (p.relative p.root) = p.root) ∧
    (∀ q r : Path, q.isAbsolute = true → r.isAbsolute = true → q.sameComponents p.root = false →
      r.sameComponents p.root = false → q.sameComponents r = false →
      (p.relative q).sameComponents (p.relative r) = false) := by
  refine ⟨fun q hq hfile hne => sameComponents_sourcePath_relative hroot hq hne hfile, fun hfile => if_pos hfile, ?_⟩
  intro q r hq hr hqne hrne hdiffer
  have hne : q.components ≠ r.components := of_decide_eq_false hdiffer
  exact decide_eq_false fun h => hne (components_relative_inj hroot hq hr hqne hrne h)

/-- A project without rules, whose root is written with more than it needs. -/
def looselyRooted : Project where
  tree := { nodes := [], workingDirectory := [] }
  root := .ofString "//p/./w/"
  config := {}
  rules := { blockRules := [], fileRules := [] }
  exclude := []

/-- Below the root and outside of it, for files that are written with more than they need. -/
theorem sourcePath_relative_of_loose_spelling :
    (looselyRooted.sourcePath (looselyRooted.relative (.ofString "/p//w/./a/.//b.js"))).sameComponents
      (.ofString "/p//w/./a/.//b.js") = true ∧
    (looselyRooted.sourcePath (looselyRooted.relative (.ofString "/p/w2/b.js"))).sameComponents
      (.ofString "/p/w2/b.js") = true ∧
    (looselyRooted.relative (.ofString "/p//w/./a/.//b.js")).sameComponents
      (looselyRooted.relative (.ofString "/a/b.js")) = false := by
  obtain ⟨hback, -, hinj⟩ := sourcePath_relative looselyRooted (by decide +kernel)
  refine ⟨hback _ ?_ ?_ ?_, hback _ ?_ ?_ ?_, hinj _ _ ?_ ?_ ?_ ?_ ?_⟩
  all_goals decide +kernel

end DocLint.Project
