import Mathlib.Data.Nat.Find
import DocLint.Region

/-!
# Regions of a file

What a position documents is decided by three searches ahead.  Each of them is described by what stands at positions,
and from this it follows how the regions lie: the class header comes first, after it every function has one interval
that ends at its keyword, and the intervals lie in the order of the functions.
-/
namespace DocLint.Stream

variable (s : Stream) (kinds : List Kind)

/-- A token of one of the kinds stands at a position. -/
def HasKind (pos : Nat) : Prop := ∃ k ∈ kinds, s.kind? pos = some k

/-- No token of one of the kinds stands from `lo` up to `hi`. -/
def Clear (lo hi : Nat) : Prop := ∀ i, lo ≤ i → i < hi → ¬ s.HasKind kinds i

/-- The first token of one of the kinds, at or after `start`. -/
structure IsNext (start pos : Nat) : Prop where
  le : start ≤ pos
  here : s.HasKind kinds pos
  clear : s.Clear kinds start pos

variable {s kinds} {start pos lo hi : Nat}

theorem HasKind.lt_size (h : s.HasKind kinds pos) : pos < s.size := by
  obtain ⟨k, -, hk⟩ := h
  obtain ⟨t, ht, -⟩ := Option.map_eq_some_iff.1 hk
  exact (List.getElem?_eq_some_iff.1 ht).1

theorem hasKind_singleton {k : Kind} : s.HasKind [k] pos ↔ s.kind? pos = some k := by
  simp [HasKind]

theorem Clear.mono (h : s.Clear kinds lo hi) (hle : lo ≤ start) : s.Clear kinds start hi :=
  fun i hi => h i (Nat.le_trans hle hi)

/-! ## Searches -/

/-- A search looks at the tokens from `start` on. -/
theorem hasKind_drop {j : Nat} :
    s.HasKind kinds (start + j) ↔ ∃ t, (s.tokens.drop start)[j]? = some t ∧ kinds.contains t.kind = true := by
  simp only [HasKind, kind?, List.getElem?_drop, Option.map_eq_some_iff, List.contains_iff_mem]
  constructor
  · rintro ⟨k, hk, t, ht, rfl⟩
    exact ⟨t, ht, hk⟩
  · rintro ⟨t, ht, hk⟩
    exact ⟨t.kind, hk, t, ht, rfl⟩

theorem findFrom_eq_some_iff : s.findFrom kinds start = some pos ↔ s.IsNext kinds start pos := by
  constructor
  · intro h
    obtain ⟨j, hj, rfl⟩ := Option.map_eq_some_iff.1 h
    obtain ⟨hlt, hhere, hearlier⟩ := List.findIdx?_eq_some_iff_getElem.1 hj
    refine ⟨Nat.le_add_right start j, hasKind_drop.2 ⟨_, List.getElem?_eq_getElem hlt, hhere⟩, fun i hlo hhi hi => ?_⟩
    obtain ⟨d, rfl⟩ := Nat.exists_eq_add_of_le hlo
    obtain ⟨t, ht, hk⟩ := hasKind_drop.1 hi
    obtain ⟨hd, rfl⟩ := List.getElem?_eq_some_iff.1 ht
    exact hearlier d (by omega) hk
  · rintro ⟨hle, hhere, hclear⟩
    obtain ⟨j, rfl⟩ := Nat.exists_eq_add_of_le hle
    obtain ⟨t, ht, hk⟩ := hasKind_drop.1 hhere
    obtain ⟨hlt, rfl⟩ := List.getElem?_eq_some_iff.1 ht
    have hj : (s.tokens.drop start).findIdx? (fun t => kinds.contains t.kind) = some j := by
      refine List.findIdx?_eq_some_iff_getElem.2 ⟨hlt, hk, fun d hd hkd => ?_⟩
      refine hclear (start + d) (Nat.le_add_right start d) (by omega) (hasKind_drop.2 ⟨_, ?_, hkd⟩)
      exact List.getElem?_eq_getElem (Nat.lt_trans hd hlt)
    rw [findFrom, hj, Option.map_some]

theorem kind?_of_findFrom (h : s.findFrom kinds start = some pos) : ∃ k ∈ kinds, s.kind? pos = some k :=
  (findFrom_eq_some_iff.1 h).here

theorem findFrom_eq_none_iff : s.findFrom kinds start = none ↔ s.Clear kinds start s.size := by
  rw [findFrom, Option.map_eq_none_iff, List.findIdx?_eq_none_iff]
  constructor
  · intro h i hlo _ hi
    obtain ⟨d, rfl⟩ := Nat.exists_eq_add_of_le hlo
    obtain ⟨t, ht, hk⟩ := hasKind_drop.1 hi
    rw [h t (List.mem_of_getElem? ht)] at hk
    cases hk
  · intro h t ht
    obtain ⟨d, hd⟩ := List.getElem?_of_mem ht
    by_contra hk
    have hpos := hasKind_drop.2 ⟨t, hd, by simpa using hk⟩
    exact h (start + d) (Nat.le_add_right start d) hpos.lt_size hpos

/-- A search that begins later does not find anything earlier. -/
theorem IsNext.le_of_le {q m n : Nat} (hm : s.IsNext kinds start m) (hn : s.IsNext kinds q n)
    (hle : start ≤ q) : m ≤ n := by
  by_contra hlt
  exact hm.clear n (Nat.le_trans hle hn.le) (by omega) hn.here

/-! ## Functions and what documents them -/

/-- The next function after `pos` is the one at `marker`, and no declaration ends before it. -/
structure Documents (s : Stream) (pos marker : Nat) : Prop where
  next : s.IsNext [.functionKeyword] pos marker
  unended : s.Clear [.comma, .closeBrace] pos marker

variable {m n p q : Nat}

theorem functionMarker?_eq_some_iff : s.functionMarker? p = some m ↔ s.Documents p m := by
  unfold functionMarker?
  cases hm : s.findFrom [.functionKeyword] p with
  | none =>
    have hnone := findFrom_eq_none_iff.1 hm
    have hnot : ¬ s.Documents p m := fun h => hnone m h.next.le h.next.here.lt_size h.next.here
    cases s.findFrom [.comma, .closeBrace] p <;> simp [hnot]
  | some marker =>
    have hnext := findFrom_eq_some_iff.1 hm
    have heq : s.Documents p m → marker = m := fun h =>
      Nat.le_antisymm (hnext.le_of_le h.next (Nat.le_refl p)) (h.next.le_of_le hnext (Nat.le_refl p))
    cases hstop : s.findFrom [.comma, .closeBrace] p with
    | none =>
      have hclear := findFrom_eq_none_iff.1 hstop
      rw [Option.some_inj]
      refine ⟨?_, heq⟩
      rintro rfl
      exact ⟨hnext, fun i hlo hhi => hclear i hlo (Nat.lt_trans hhi hnext.here.lt_size)⟩
    | some stop =>
      have hend := findFrom_eq_some_iff.1 hstop
      simp only
      split
      · next hlt =>
        constructor
        · intro h
          cases h
        · intro h
          obtain rfl := heq h
          exact absurd hend.here (h.unended stop hend.le hlt)
      · next hge =>
        rw [Option.some_inj]
        refine ⟨?_, heq⟩
        rintro rfl
        exact ⟨hnext, fun i hlo hhi => hend.clear i hlo (by omega)⟩

/-- What documents a function does so from there on up to the function itself. -/
theorem Documents.later (h : s.Documents p m) (hpq : p ≤ q) (hqm : q ≤ m) : s.Documents q m :=
  ⟨⟨hqm, h.next.here, h.next.clear.mono hpq⟩, h.unended.mono hpq⟩

/-- The positions that document a function, those before `lo` left out, form an interval that ends at the function. -/
theorem exists_start (hm : s.kind? m = some .functionKeyword) (hle : lo ≤ m) :
    ∃ start, lo ≤ start ∧ start ≤ m ∧ ∀ p, lo ≤ p ∧ s.Documents p m ↔ start ≤ p ∧ p ≤ m := by
  have hempty : ∀ kinds, s.Clear kinds m m := fun _ i hlo hhi => absurd hhi (Nat.not_lt.2 hlo)
  have hself : lo ≤ m ∧ s.Documents m m :=
    ⟨hle, ⟨Nat.le_refl m, hasKind_singleton.2 hm, hempty _⟩, hempty _⟩
  classical
  have hex : ∃ p, lo ≤ p ∧ s.Documents p m := ⟨m, hself⟩
  obtain ⟨hlo, hfirst⟩ := Nat.find_spec hex
  refine ⟨Nat.find hex, hlo, Nat.find_min' hex hself, fun p => ⟨fun h => ?_, fun ⟨hp, hpm⟩ => ?_⟩⟩
  · exact ⟨Nat.find_min' hex h, h.2.next.le⟩
  · exact ⟨Nat.le_trans hlo hp, hfirst.later hp hpm⟩

/-! ## Regions -/

/-- The class header ends at the first opening parenthesis or brace, or with the stream. -/
theorem classBoundary_cases (s : Stream) :
    s.IsNext [.openParen, .openBrace] 0 s.classBoundary ∨
      s.classBoundary = s.size ∧ s.Clear [.openParen, .openBrace] 0 s.size := by
  unfold classBoundary
  cases h : s.findFrom [.openParen, .openBrace] 0 with
  | none => exact .inr ⟨rfl, findFrom_eq_none_iff.1 h⟩
  | some b => exact .inl (findFrom_eq_some_iff.1 h)

theorem classify_eq_classHeader_iff {b : Nat} :
    s.classify p = .classHeader b ↔ p < s.classBoundary ∧ b = s.classBoundary := by
  unfold classify
  split
  · next h => simp [h, eq_comm]
  · next h => cases s.functionMarker? p <;> simp [h]

theorem classify_eq_functionHeader_iff :
    s.classify p = .functionHeader m ↔ s.classBoundary ≤ p ∧ s.Documents p m := by
  rw [← functionMarker?_eq_some_iff]
  unfold classify
  split
  · next h => simp [Nat.not_le_of_lt h]
  · next h => cases s.functionMarker? p <;> simp [Nat.le_of_not_lt h]

theorem classify_eq_elsewhere_iff :
    s.classify p = .elsewhere ↔ s.classBoundary ≤ p ∧ ∀ m, ¬ s.Documents p m := by
  simp only [← functionMarker?_eq_some_iff]
  unfold classify
  split
  · next h => simp [Nat.not_le_of_lt h]
  · next h => cases s.functionMarker? p <;> simp [Nat.le_of_not_lt h]

/-- How the regions of a stream lie.  Up to the boundary everything belongs to the class header.  Behind it each
function has the positions that document it, which form an interval, and nothing else has a region. -/
structure Regions (s : Stream) : Prop where
  boundary : s.IsNext [.openParen, .openBrace] 0 s.classBoundary ∨
    s.classBoundary = s.size ∧ s.Clear [.openParen, .openBrace] 0 s.size
  header : ∀ p, s.classify p = .classHeader s.classBoundary ↔ p < s.classBoundary
  header_before : ∀ {p q b}, s.classify q = .classHeader b → p ≤ q → s.classify p = .classHeader b
  functions : ∀ p m, s.classify p = .functionHeader m ↔ s.classBoundary ≤ p ∧ s.Documents p m
  interval : ∀ m, s.kind? m = some .functionKeyword → s.classBoundary ≤ m →
    ∃ start, s.classBoundary ≤ start ∧ start ≤ m ∧ ∀ p, s.classify p = .functionHeader m ↔ start ≤ p ∧ p ≤ m
  no_interval : ∀ m, ¬ (s.kind? m = some .functionKeyword ∧ s.classBoundary ≤ m) →
    ∀ p, s.classify p ≠ .functionHeader m
  rising : ∀ {p q m n}, s.classify p = .functionHeader m → s.classify q = .functionHeader n → p ≤ q → m ≤ n
  elsewhere : ∀ p, s.classify p = .elsewhere ↔ s.classBoundary ≤ p ∧ ∀ m, ¬ s.Documents p m

/-- The regions of every stream lie in this way, whatever its index says. -/
theorem classify_regions (s : Stream) : s.Regions where
  boundary := s.classBoundary_cases
  header p := by rw [classify_eq_classHeader_iff, and_iff_left rfl]
  header_before hq hpq := by
    obtain ⟨hlt, rfl⟩ := classify_eq_classHeader_iff.1 hq
    exact classify_eq_classHeader_iff.2 ⟨Nat.lt_of_le_of_lt hpq hlt, rfl⟩
  functions p m := classify_eq_functionHeader_iff
  interval m hm hle := by
    obtain ⟨start, hlo, hhi, h⟩ := exists_start hm hle
    exact ⟨start, hlo, hhi, fun p => classify_eq_functionHeader_iff.trans (h p)⟩
  no_interval m hm p hp := by
    obtain ⟨hle, hdoc⟩ := classify_eq_functionHeader_iff.1 hp
    exact hm ⟨hasKind_singleton.1 hdoc.next.here, Nat.le_trans hle hdoc.next.le⟩
  rising hm hn hpq := by
    obtain ⟨-, hm⟩ := classify_eq_functionHeader_iff.1 hm
    obtain ⟨-, hn⟩ := classify_eq_functionHeader_iff.1 hn
    exact hm.next.le_of_le hn.next hpq
  elsewhere p := classify_eq_elsewhere_iff

end DocLint.Stream
