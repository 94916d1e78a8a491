import Mathlib.Data.List.Basic
import Mathlib.Data.List.Induction
import DocLint.FileTree

/-!
# Paths and the places they lead to

The path of a place leads to it, name by name, and its ancestors are the paths of the places above it.  A name is looked
up in the working directory whether that directory is written in front of it or not, as long as the longer path is one
that system calls take.
-/
namespace DocLint

open DocLint.Text
open DocLint.Path (isNoise)

/-- The name of something in a directory. -/
structure Path.IsName (name : List Char) : Prop where
  real : isNoise name = false
  notParent : name ≠ ['.', '.']
  noSlash : '/' ∉ name

namespace Path

variable {name : List Char}

theorem IsName.ne_nil (h : IsName name) : name ≠ [] := by
  rintro rfl
  exact absurd h.real (by decide)

theorem IsName.ne_dot (h : IsName name) : name ≠ ['.'] := by
  rintro rfl
  exact absurd h.real (by decide)

theorem IsName.not_isAbsolute (h : IsName name) : Path.isAbsolute ⟨name⟩ = false := by
  cases name with
  | nil => rfl
  | cons c cs =>
    have hc : c ≠ '/' := fun hc => h.noSlash (by simp [hc])
    simpa [isAbsolute] using hc

theorem empty_join (p : Path) : (⟨[]⟩ : Path) / p = p := by
  show join ⟨[]⟩ p = p
  simp [join]

theorem join_name (p : Path) (h : IsName name) : p / ⟨name⟩ =
    if p.chars = [] ∨ p.chars.getLast? = some '/' then ⟨p.chars ++ name⟩ else ⟨p.chars ++ '/' :: name⟩ := by
  have hrelative : ¬ isAbsolute ⟨name⟩ = true := by simp [h.not_isAbsolute]
  show join p ⟨name⟩ = _
  rw [join, if_neg hrelative]

/-- A name behind a path is a segment of its own.  The path may end in a slash. -/
theorem join_cases (p : Path) (h : IsName name) :
    (p.chars = [] ∧ p / ⟨name⟩ = ⟨name⟩) ∨ (∃ front, p.chars = front ++ ['/'] ∧ p / ⟨name⟩ = ⟨front ++ '/' :: name⟩) ∨
      (p.chars ≠ [] ∧ p / ⟨name⟩ = ⟨p.chars ++ '/' :: name⟩) := by
  rw [join_name p h]
  by_cases hnil : p.chars = []
  · left
    simp [hnil]
  right
  by_cases hlast : p.chars.getLast? = some '/'
  · left
    obtain ⟨front, hfront⟩ := List.getLast?_eq_some_iff.1 hlast
    exact ⟨front, hfront, by simp [hfront]⟩
  · right
    exact ⟨hnil, by simp [hnil, hlast]⟩

theorem trimSegments_of_real {segments : List (List Char)} (h : ∀ s ∈ segments, isNoise s = false) :
    trimSegments segments = segments := by
  have hreverse : segments.reverse.dropWhile isNoise = segments.reverse := by
    cases hr : segments.reverse with
    | nil => rfl
    | cons s ss =>
      have hs : s ∈ segments := List.mem_reverse.1 (hr ▸ List.mem_cons_self)
      rw [List.dropWhile_cons_of_neg (by simp [h s hs])]
  rw [trimSegments, hreverse, List.reverse_reverse]

theorem dot_join (h : IsName name) : (⟨['.']⟩ : Path) / ⟨name⟩ = ⟨'.' :: '/' :: name⟩ := join_name ⟨['.']⟩ h

theorem anchored_name (h : IsName name) : anchored ⟨name⟩ = (.nothing, [name]) := by
  rw [anchored, splitOn_of_notMem h.noSlash]
  split
  · next heq => cases heq
  · next heq => exact absurd (List.cons.inj heq).1 h.ne_dot
  · rfl

theorem splitOn_dot (h : IsName name) : splitOn '/' ('.' :: '/' :: name) = [['.'], name] := by
  simp [splitOn, splitOn_of_notMem h.noSlash]

theorem anchored_dot (h : IsName name) : anchored ⟨'.' :: '/' :: name⟩ = (.current, [name]) := by
  rw [anchored, splitOn_dot h]
  rfl

theorem IsName.trimSegments (h : IsName name) : trimSegments [name] = [name] :=
  trimSegments_of_real (List.forall_mem_singleton.2 h.real)

/-- A mere name is in no directory. -/
theorem parent?_name (h : IsName name) : parent? ⟨name⟩ = some ⟨[]⟩ := by
  simp only [parent?, anchored_name h, h.trimSegments]
  rfl

theorem parent?_dot (h : IsName name) : parent? ⟨'.' :: '/' :: name⟩ = some ⟨['.']⟩ := by
  simp only [parent?, anchored_dot h, h.trimSegments]
  rfl

theorem ancestors_cons (p : Path) : ∃ above, p.ancestors = p :: above := by
  rw [ancestors]
  cases p.components.length with
  | zero => exact ⟨[], rfl⟩
  | succ n =>
    rw [ancestorsWithin]
    cases p.parent? with
    | none => exact ⟨[], rfl⟩
    | some q => exact ⟨_, rfl⟩

theorem ancestors_empty : (⟨[]⟩ : Path).ancestors = [⟨[]⟩] := rfl

end Path

open DocLint.Path (IsName)

/-! ## The place of a path -/

namespace Place

variable {place : Place} {name : List Char}

/-- A place with nothing but names in it. -/
def Proper (place : Place) : Prop := ∀ name ∈ place, IsName name

theorem Proper.concat (h : Proper place) (hname : IsName name) : Proper (place ++ [name]) := by
  intro n hn
  rcases List.mem_append.1 hn with hn | hn
  · exact h n hn
  · exact List.mem_singleton.1 hn ▸ hname

theorem Proper.dropLast (h : Proper place) : Proper place.dropLast :=
  fun name hname => h name (List.dropLast_subset place hname)

theorem Proper.mono {other : Place} (h : Proper place) (hother : other <+: place) : Proper other :=
  fun name hname => h name (hother.subset hname)

theorem Proper.noSlash (h : Proper place) : ∀ name ∈ place, '/' ∉ name := fun name hname => (h name hname).noSlash

theorem Proper.real (h : Proper place) : ∀ name ∈ place, isNoise name = false := fun name hname => (h name hname).real

/-- The text of a path ends with the last name of its place. -/
theorem exists_path_concat (place : Place) (name : List Char) :
    ∃ front, (path (place ++ [name])).chars = front ++ name := by
  by_cases hne : place = []
  · exact ⟨['/'], by simp [hne, path, joinWith]⟩
  · exact ⟨'/' :: (joinWith ['/'] place ++ ['/']), by simp [path, joinWith_concat _ hne]⟩

/-- The path of a place, and a name behind it. -/
theorem path_join (h : Proper place) (hname : IsName name) : place.path / ⟨name⟩ = path (place ++ [name]) := by
  rw [Path.join_name place.path hname]
  rcases List.eq_nil_or_concat' place with rfl | ⟨above, last, rfl⟩
  · rfl
  · obtain ⟨front, hfront⟩ := exists_path_concat above last
    have hlast : IsName last := h last (by simp)
    have hopen : ¬ ((path (above ++ [last])).chars = [] ∨ (path (above ++ [last])).chars.getLast? = some '/') := by
      rw [hfront, List.getLast?_append_of_ne_nil _ hlast.ne_nil]
      rintro (hnil | hslash)
      · exact hlast.ne_nil (List.append_eq_nil_iff.1 hnil).2
      · exact hlast.noSlash (List.mem_of_getLast? hslash)
    rw [if_neg hopen, path, path, joinWith_concat _ (by simp) name]
    simp

theorem isAbsolute_path (place : Place) : place.path.isAbsolute = true := rfl

/-- Segment by segment, the path of a place has the names of that place. -/
theorem splitOn_path (h : Proper place) (hne : place ≠ []) : splitOn '/' place.path.chars = [] :: place := by
  rw [path, splitOn, if_pos rfl, splitOn_joinWith hne h.noSlash]

theorem anchored_path (h : Proper place) (hne : place ≠ []) : place.path.anchored = (.root, place) := by
  obtain ⟨name, names, rfl⟩ := List.exists_cons_of_ne_nil hne
  rw [Path.anchored, splitOn_path h hne]

theorem parent?_path (h : Proper (place ++ [name])) : (path (place ++ [name])).parent? = some place.path := by
  have habove : Proper place := h.mono (List.prefix_append place [name])
  rw [Path.parent?, anchored_path h (by simp)]
  simp only [Path.trimSegments_of_real h.real]
  cases hplace : place ++ [name] with
  | nil => simp at hplace
  | cons s ss =>
    have hinit : (s :: ss).dropLast = place := by rw [← hplace, List.dropLast_concat]
    simp only [hinit, Path.trimSegments_of_real habove.real]
    rfl

/-- The ancestors of the path of a place are paths of places above it. -/
theorem exists_of_mem_ancestors {q : Path} (h : Proper place) (hq : q ∈ place.path.ancestors) :
    ∃ above, above <+: place ∧ q = path above := by
  rw [Path.ancestors] at hq
  -- By induction on the number of steps: each takes away the last name, and at the root there is none left.
  generalize place.path.components.length = fuel at hq
  induction fuel generalizing place with
  | zero => exact ⟨place, List.prefix_rfl, List.mem_singleton.1 hq⟩
  | succ fuel ih =>
    rcases List.eq_nil_or_concat' place with rfl | ⟨above, last, rfl⟩
    · exact ⟨[], List.prefix_rfl, List.mem_singleton.1 hq⟩
    · rw [Path.ancestorsWithin, parent?_path h] at hq
      rcases List.mem_cons.1 hq with rfl | hq
      · exact ⟨above ++ [last], List.prefix_rfl, rfl⟩
      · have habove : above <+: above ++ [last] := List.prefix_append above [last]
        obtain ⟨other, hother, hpath⟩ := ih (h.mono habove) hq
        exact ⟨other, hother.trans habove, hpath⟩

/-! ## Resolving -/

/-- The place that a segment names as seen from another place. -/
def enter (place : Place) (segment : List Char) : Place :=
  if isNoise segment then place
  else if segment = ['.', '.'] then place.dropLast
  else place ++ [segment]

theorem enter_name (place : Place) (hname : IsName name) : place.enter name = place ++ [name] := by
  rw [enter, if_neg (by simp [hname.real]), if_neg hname.notParent]

theorem resolve_eq_foldl (start : Place) (p : Path) :
    resolve start p = (splitOn '/' p.chars).foldl enter (if p.isAbsolute then [] else start) := rfl

theorem resolve_slash (start : Place) (cs ds : List Char) :
    resolve start ⟨cs ++ '/' :: ds⟩ = (splitOn '/' ds).foldl enter (resolve start ⟨cs ++ ['/']⟩) := by
  have habsolute : Path.isAbsolute ⟨cs ++ '/' :: ds⟩ = Path.isAbsolute ⟨cs ++ ['/']⟩ := by
    cases cs <;> rfl
  rw [resolve_eq_foldl, resolve_eq_foldl, habsolute]
  simp only [splitOn_append_sep, List.foldl_append]
  rfl

/-- A slash at the end of a path does not matter. -/
theorem resolve_trailing (start : Place) {cs : List Char} (hne : cs ≠ []) :
    resolve start ⟨cs ++ ['/']⟩ = resolve start ⟨cs⟩ := by
  have habsolute : Path.isAbsolute ⟨cs ++ ['/']⟩ = Path.isAbsolute ⟨cs⟩ := by
    obtain ⟨c, cs, rfl⟩ := List.exists_cons_of_ne_nil hne
    rfl
  rw [resolve_eq_foldl, resolve_eq_foldl, habsolute]
  simp only [splitOn_append_sep, List.foldl_append]
  rfl

/-- A name behind a path is a name behind its place. -/
theorem resolve_join (start : Place) (p : Path) (hname : IsName name) :
    resolve start (p / ⟨name⟩) = resolve start p ++ [name] := by
  have hsplit : splitOn '/' name = [name] := splitOn_of_notMem hname.noSlash
  obtain ⟨cs⟩ := p
  -- The path is empty, or ends in a slash already, or gets one.
  rcases Path.join_cases ⟨cs⟩ hname with ⟨rfl, hjoin⟩ | ⟨front, rfl, hjoin⟩ | ⟨hne, hjoin⟩
  · rw [hjoin, resolve_eq_foldl, hsplit, hname.not_isAbsolute]
    exact enter_name start hname
  · rw [hjoin, resolve_slash, hsplit]
    exact enter_name _ hname
  · rw [hjoin, resolve_slash, resolve_trailing start hne, hsplit]
    exact enter_name _ hname

theorem resolve_path (start : Place) (h : Proper place) : resolve start (path place) = place := by
  induction place using List.reverseRecOn with
  | nil => rfl
  | append_singleton place name ih =>
    have habove : Proper place := h.mono (List.prefix_append place [name])
    have hname : IsName name := h name (by simp)
    rw [← path_join habove hname, resolve_join start (path place) hname, ih habove]

theorem Proper.enter (h : Proper place) {segment : List Char} (hslash : '/' ∉ segment) :
    Proper (place.enter segment) := by
  rw [Place.enter]
  split
  · exact h
  · next hreal =>
    split
    · exact h.dropLast
    · next hparent => exact h.concat ⟨by simpa using hreal, hparent, hslash⟩

theorem Proper.foldl_enter (h : Proper place) {segments : List (List Char)} (hslash : ∀ s ∈ segments, '/' ∉ s) :
    Proper (segments.foldl Place.enter place) := by
  induction segments generalizing place with
  | nil => exact h
  | cons s ss ih =>
    obtain ⟨hs, hss⟩ := List.forall_mem_cons.1 hslash
    exact ih (h.enter hs) hss

/-- Whatever its spelling, an absolute path names a place by nothing but names. -/
theorem proper_resolve_absolute (start : Place) {p : Path} (h : p.isAbsolute = true) : Proper (resolve start p) := by
  have hroot : Proper ([] : Place) := fun name hname => absurd hname List.not_mem_nil
  rw [resolve_eq_foldl, if_pos h]
  exact hroot.foldl_enter fun s hs => notMem_of_mem_splitOn hs

end Place

/-! ## Looking up -/

namespace FileTree

variable {t : FileTree} {p : Path} {place next : Place} {name segment : List Char}

/-- A path that system calls take. -/
structure Accepted (p : Path) : Prop where
  noNul : '\x00' ∉ p.chars
  fits : byteLength p.chars ≤ pathLimit

theorem Accepted.of_suffix {q : Path} (h : Accepted p) {front : List Char} (hp : p.chars = front ++ q.chars) :
    Accepted q := by
  obtain ⟨hnul, hfits⟩ := h
  rw [hp] at hnul hfits
  rw [byteLength_append] at hfits
  exact ⟨fun hq => hnul (List.mem_append_right front hq), by omega⟩

theorem accepted_of_locate (h : t.locate p = .ok place) : Accepted p := by
  rw [locate] at h
  split at h
  · cases h
  · next hnul =>
    split at h
    · cases h
    · next hfits => exact ⟨by simpa using hnul, by omega⟩

/-- A path is looked up segment by segment. -/
theorem locate_eq_foldlM (h : Accepted p) (hne : p.chars ≠ []) :
    t.locate p = (splitOn '/' p.chars).foldlM t.step (if p.isAbsolute then [] else t.workingDirectory) := by
  have hnul : ¬ p.chars.contains '\x00' = true := by simpa using h.noNul
  have hfits : ¬ pathLimit < byteLength p.chars := Nat.not_lt.2 h.fits
  rw [locate, if_neg hnul, if_neg hfits]
  split
  · next hnil => exact absurd hnil hne
  · next cs hcs =>
    have habsolute : p.isAbsolute = true := by simp [Path.isAbsolute, hcs]
    rw [hcs, splitOn, if_pos rfl, if_pos habsolute]
    rfl
  · next hnil hslash =>
    have habsolute : ¬ p.isAbsolute = true := by
      intro habsolute
      obtain ⟨rest, hrest⟩ := List.head?_eq_some_iff.1 (of_decide_eq_true habsolute)
      exact hslash rest hrest
    rw [if_neg habsolute]

/-- A segment leads on from a directory only. -/
theorem step_eq_ok (h : t.step place segment = .ok next) :
    t.node? place = some .directory ∧ next = place.enter segment ∧ byteLength segment ≤ nameLimit := by
  rw [step] at h
  split at h
  · cases h
  · cases h
  · next hdirectory =>
    refine ⟨hdirectory, ?_⟩
    rw [Place.enter]
    split_ifs at h ⊢ with hnoise hparent hlong hfound
    · have hshort : byteLength segment ≤ nameLimit := by
        simp only [isNoise, Bool.or_eq_true, decide_eq_true_eq] at hnoise
        rcases hnoise with rfl | rfl <;> decide
      cases h
      exact ⟨rfl, hshort⟩
    · cases h
      exact ⟨rfl, by rw [hparent]; decide⟩
    · cases h
      exact ⟨rfl, Nat.not_lt.1 hlong⟩

theorem foldlM_step_eq_ok {segments : List (List Char)} (h : segments.foldlM t.step place = .ok next) :
    next = segments.foldl Place.enter place := by
  induction segments generalizing place with
  | nil =>
    cases h
    rfl
  | cons s ss ih =>
    rw [List.foldlM_cons] at h
    cases hs : t.step place s with
    | error e =>
      rw [hs] at h
      cases h
    | ok q =>
      rw [hs] at h
      rw [List.foldl_cons, ← (step_eq_ok hs).2.1]
      exact ih h

/-- What is found at a path is found at the place that the path names. -/
theorem eq_resolve_of_locate (h : t.locate p = .ok place) : place = Place.resolve t.workingDirectory p := by
  have hne : p.chars ≠ [] := by
    intro hnil
    obtain rfl : p = ⟨[]⟩ := by rw [← hnil]
    cases h
  rw [locate_eq_foldlM (accepted_of_locate h) hne] at h
  exact foldlM_step_eq_ok h

theorem isFile_iff :
    t.isFile p = true ↔ ∃ place content, t.locate p = .ok place ∧ t.node? place = some (.file content) := by
  rw [isFile, stat]
  cases hplace : t.locate p with
  | error e => simp [bind, Except.bind]
  | ok place =>
    cases hnode : t.node? place with
    | none => simp [bind, Except.bind, hnode]
    | some node => cases node <;> simp [bind, Except.bind, hnode]

theorem accepted_of_isFile (h : t.isFile p = true) : Accepted p := by
  obtain ⟨place, content, hplace, -⟩ := isFile_iff.1 h
  exact accepted_of_locate hplace

theorem locate_name (hname : IsName name) (h : Accepted ⟨name⟩) : t.locate ⟨name⟩ = t.step t.workingDirectory name := by
  rw [locate_eq_foldlM h hname.ne_nil, hname.not_isAbsolute, splitOn_of_notMem hname.noSlash]
  simp

theorem step_dot (h : t.node? place = some .directory) : t.step place ['.'] = .ok place := by
  simp [step, h, isNoise]

/-- A point stands for the working directory. -/
theorem locate_dot (h : t.node? t.workingDirectory = some .directory) : t.locate ⟨['.']⟩ = .ok t.workingDirectory := by
  have haccepted : Accepted ⟨['.']⟩ := ⟨by decide, by decide⟩
  rw [locate_eq_foldlM haccepted (List.cons_ne_nil _ _)]
  show [['.']].foldlM t.step t.workingDirectory = _
  simp [step_dot h]

theorem locate_dot_join (hname : IsName name) (h : t.node? t.workingDirectory = some .directory)
    (haccepted : Accepted ⟨'.' :: '/' :: name⟩) :
    t.locate ⟨'.' :: '/' :: name⟩ = t.step t.workingDirectory name := by
  rw [locate_eq_foldlM haccepted (List.cons_ne_nil _ _), Path.splitOn_dot hname]
  show [['.'], name].foldlM t.step t.workingDirectory = _
  rw [List.foldlM_cons, step_dot h]
  show [name].foldlM t.step t.workingDirectory = _
  simp

/-! ## The working directory -/

section WorkingDirectory

variable (hworking : t.locate t.workingPath = .ok t.workingDirectory)
include hworking

theorem proper_workingDirectory : t.workingDirectory.Proper := by
  rw [eq_resolve_of_locate hworking]
  exact Place.proper_resolve_absolute _ rfl

theorem foldlM_step_workingDirectory : t.workingDirectory.foldlM t.step [] = .ok t.workingDirectory := by
  by_cases hroot : t.workingDirectory = []
  · rw [hroot]
    rfl
  · have hlocate := hworking
    rw [locate_eq_foldlM (accepted_of_locate hworking) (List.cons_ne_nil _ _), workingPath,
      Place.splitOn_path (proper_workingDirectory hworking) hroot] at hlocate
    exact hlocate

theorem workingPath_join (hname : IsName name) :
    t.workingPath / ⟨name⟩ = Place.path (t.workingDirectory ++ [name]) :=
  Place.path_join (proper_workingDirectory hworking) hname

theorem accepted_name (hname : IsName name) (h : Accepted (t.workingPath / ⟨name⟩)) : Accepted ⟨name⟩ := by
  rw [workingPath_join hworking hname] at h
  obtain ⟨front, hfront⟩ := Place.exists_path_concat t.workingDirectory name
  exact h.of_suffix hfront

theorem locate_workingPath_join (hname : IsName name) (h : Accepted (t.workingPath / ⟨name⟩)) :
    t.locate (t.workingPath / ⟨name⟩) = t.step t.workingDirectory name := by
  have hproper : Place.Proper (t.workingDirectory ++ [name]) := (proper_workingDirectory hworking).concat hname
  rw [workingPath_join hworking hname] at h ⊢
  rw [locate_eq_foldlM h (List.cons_ne_nil _ _), Place.splitOn_path hproper (by simp), Place.isAbsolute_path,
    if_pos rfl, List.foldlM_cons]
  have hroot : t.step [] [] = .ok [] := rfl
  have hlast : [name].foldlM t.step t.workingDirectory = t.step t.workingDirectory name := by simp
  calc (t.step [] [] >>= fun root => (t.workingDirectory ++ [name]).foldlM t.step root)
    _ = (t.workingDirectory ++ [name]).foldlM t.step [] := by rw [hroot]; rfl
    _ = (t.workingDirectory.foldlM t.step [] >>= fun directory => [name].foldlM t.step directory) :=
      List.foldlM_append
    _ = t.step t.workingDirectory name := by
      rw [foldlM_step_workingDirectory hworking]
      exact hlast

end WorkingDirectory

end FileTree
end DocLint
