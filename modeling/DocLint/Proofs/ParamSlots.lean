import DocLint.Language
import DocLint.Proofs.Brackets
import DocLint.Proofs.Regions

/-!
# Slots of a parameter list

A parameter list has its slots between the commas that stand in no brackets of their own.  The index knows these
brackets by its stack, while the parameters are counted with a depth that knows no kinds and stops at zero.  The depth
is never above the height of the stack.  It falls below it where a closing bracket belongs to nothing and stands inside
a pair: a comma after it, in the same pair, may then be taken for the end of a parameter.
-/
namespace DocLint

theorem Kind.isCode_of_closing? {k c : Kind} (h : k.closing? = some c) : k.isCode = true := by
  cases k <;> first | rfl | cases h

theorem Kind.isCode_of_isClosing {k : Kind} (h : k.isClosing = true) : k.isCode = true := by
  cases k <;> first | rfl | cases h

namespace Stream

section Slots

variable (s : Stream) (lo hi : Nat)

/-- Strictly inside a pair of brackets that stands strictly between `lo` and `hi`. -/
def Inside (pos : Nat) : Prop := ∃ o < pos, lo < o ∧ ∃ c ∈ s.matching? o, pos < c ∧ c < hi

instance (pos : Nat) : Decidable (s.Inside lo hi pos) := inferInstanceAs (Decidable (∃ o < pos, _))

/-- What stands between `lo` and `hi`, cut at the commas that are inside no brackets. -/
def slots : List (List (Nat × Token)) :=
  (s.between lo hi).splitOnP fun x => x.2.kind = .comma ∧ ¬ s.Inside lo hi x.1

/-- Does a slot hold anything but blanks and doc comments? -/
def isFilled (slot : List (Nat × Token)) : Bool := slot.any fun x => x.2.kind.isCode

def filledSlots : Nat := (s.slots lo hi).countP isFilled

/-- A closing bracket that belongs to no other one. -/
def IsStray (pos : Nat) : Prop := (s.kind? pos).any Kind.isClosing = true ∧ s.matching? pos = none

instance (pos : Nat) : Decidable (s.IsStray pos) := inferInstanceAs (Decidable (_ ∧ _))

/-- A stray bracket stands strictly between two positions. -/
def StrayBetween (o pos : Nat) : Prop := ∃ q < pos, o < q ∧ s.IsStray q

instance (o pos : Nat) : Decidable (s.StrayBetween o pos) := inferInstanceAs (Decidable (∃ q < pos, _))

/-- Inside a pair of brackets that stands between `lo` and `hi`, and behind a stray bracket of that pair. -/
def BehindStray (pos : Nat) : Prop :=
  ∃ o < pos, lo < o ∧ s.StrayBetween o pos ∧ ∃ c ∈ s.matching? o, pos < c ∧ c < hi

instance (pos : Nat) : Decidable (s.BehindStray lo hi pos) := inferInstanceAs (Decidable (∃ o < pos, _))

/-- In every pair of brackets between `lo` and `hi`, the commas stand before the stray brackets. -/
def Undisturbed : Prop := ∀ pos < hi, s.kind? pos = some .comma → ¬ s.BehindStray lo hi pos

instance : Decidable (s.Undisturbed lo hi) := inferInstanceAs (Decidable (∀ pos < hi, _))

end Slots

/-! ## The depth and the stack -/

/-- The depth after one more token. -/
def depthStep (depth : Nat) (k : Kind) : Nat :=
  if k.closing?.isSome then depth + 1 else if k.isClosing then depth - 1 else depth

theorem countSlots_separator (filled : Bool) (ks : List Kind) :
    countSlots 0 filled (.comma :: ks) = filled.toNat + countSlots 0 false ks := by
  simp [countSlots]

theorem countSlots_content {depth : Nat} {k : Kind} (h : ¬ (k = .comma ∧ depth = 0)) (filled : Bool) (ks : List Kind) :
    countSlots depth filled (k :: ks) = countSlots (depthStep depth k) (filled || k.isCode) ks := by
  rw [countSlots, if_neg h]
  rfl

variable {i depth : Nat} {opened : List (Nat × Kind)} {t : Token} {ts : List Token}

theorem depthStep_of_closing {k c : Kind} (hk : k.closing? = some c) : depthStep depth k = depth + 1 := by
  simp [depthStep, hk]

theorem depthStep_of_isClosing {k : Kind} (hk : k.closing? = none) (hc : k.isClosing = true) :
    depthStep depth k = depth - 1 := by
  simp [depthStep, hk, hc]

theorem depthStep_le {k : Kind} (hk : k.closing? = none) : depthStep depth k ≤ depth := by
  simp only [depthStep, hk, Option.isSome_none, Bool.false_eq_true, if_false]
  split <;> omega

/-- One more token keeps the depth at or below the height of the stack. -/
theorem Stacked.depthStep_le_length (h : Stacked i opened) (hd : depth ≤ opened.length) (t : Token) :
    depthStep depth t.kind ≤ (openedStep i opened t).length := by
  obtain ⟨made, hstep, -⟩ := exists_step i opened t
  generalize openedStep i opened t = next at hstep
  cases hstep with
  | opens hk =>
    rw [depthStep_of_closing hk, List.length_cons]
    omega
  | closes hk top =>
    subst top
    have hlength : depth ≤ next.length + 1 := hd
    rw [depthStep_of_isClosing hk (h.closing _ List.mem_cons_self)]
    omega
  | passes hk => exact Nat.le_trans (depthStep_le hk) hd

/-- A token that is no closing bracket, or closes the bracket on top, keeps the depth at the height of the stack. -/
theorem Stacked.depthStep_eq_length (h : Stacked i opened) (hd : depth = opened.length)
    (ht : t.kind.isClosing = true → ∃ o outer, opened = (o, t.kind) :: outer) :
    depthStep depth t.kind = (openedStep i opened t).length := by
  obtain ⟨made, hstep, -⟩ := exists_step i opened t
  generalize openedStep i opened t = next at hstep
  cases hstep with
  | opens hk => rw [depthStep_of_closing hk, List.length_cons, hd]
  | closes hk top =>
    subst top
    rw [depthStep_of_isClosing hk (h.closing _ List.mem_cons_self), hd]
    rfl
  | passes hk top =>
    have hopen : t.kind.isClosing = false := by
      rw [Bool.eq_false_iff]
      intro hc
      obtain ⟨o, outer, rfl⟩ := ht hc
      exact top (o, t.kind) rfl rfl
    simp [depthStep, hk, hopen, hd]

/-- The depth after some tokens. -/
def depthFrom (depth : Nat) (ts : List Token) : Nat := ts.foldl (fun d t => depthStep d t.kind) depth

theorem depthFrom_append (depth : Nat) (ts us : List Token) :
    depthFrom depth (ts ++ us) = depthFrom (depthFrom depth ts) us := List.foldl_append

theorem Stacked.depthFrom_le_length (h : Stacked i opened) (hd : depth ≤ opened.length) (ts : List Token) :
    depthFrom depth ts ≤ (Stream.openedFrom i opened ts).length := by
  induction ts generalizing i opened depth with
  | nil => exact hd
  | cons t ts ih => exact ih (h.step t) (h.depthStep_le_length hd t)

theorem Stacked.depthFrom_eq_length (h : Stacked i opened) (hd : depth = opened.length)
    (hts : ∀ a u b, ts = a ++ u :: b → u.kind.isClosing = true →
      ∃ o outer, Stream.openedFrom i opened a = (o, u.kind) :: outer) :
    depthFrom depth ts = (Stream.openedFrom i opened ts).length := by
  induction ts generalizing i opened depth with
  | nil => exact hd
  | cons t ts ih =>
    refine ih (h.step t) (h.depthStep_eq_length hd (hts [] t ts rfl)) fun a u b hsplit hu => ?_
    exact hts (t :: a) u b (by rw [hsplit, List.cons_append]) hu

/-! ## Slots by the stack -/

/-- The slots of some tokens that hold something, by the brackets that are open.  `filled` says whether the slot at hand
holds something yet. -/
def slotsFrom (i : Nat) (opened : List (Nat × Kind)) (filled : Bool) : List Token → Nat
  | [] => filled.toNat
  | t :: ts =>
    if t.kind = .comma ∧ opened = [] then filled.toNat + slotsFrom (i + 1) [] false ts
    else slotsFrom (i + 1) (openedStep i opened t) (filled || t.kind.isCode) ts

/-- A comma changes nothing on the stack. -/
theorem Stacked.openedStep_comma (h : Stacked i opened) (ht : t.kind = .comma) : openedStep i opened t = opened := by
  have hk : t.kind.closing? = none := by rw [ht]; rfl
  cases opened with
  | nil => simp [openedStep, hk]
  | cons x outer =>
    have hx : x.2 ≠ t.kind := by
      intro he
      have hclosing := h.closing x (by simp)
      rw [he, ht] at hclosing
      cases hclosing
    simp [openedStep, hk, hx]

/-- Where the depth is positive at every comma inside brackets, both counts are the same. -/
theorem Stacked.slotsFrom_eq_countSlots (h : Stacked i opened) (hd : depth ≤ opened.length)
    (hcommas : ∀ a u b, ts = a ++ u :: b → u.kind = .comma → Stream.openedFrom i opened a ≠ [] → depthFrom depth a ≠ 0)
    (filled : Bool) : slotsFrom i opened filled ts = countSlots depth filled (ts.map Token.kind) := by
  induction ts generalizing i opened depth filled with
  | nil => rfl
  | cons t ts ih =>
    have later : ∀ a u b, ts = a ++ u :: b → u.kind = .comma →
        Stream.openedFrom (i + 1) (openedStep i opened t) a ≠ [] → depthFrom (depthStep depth t.kind) a ≠ 0 :=
      fun a u b hsplit hu hne => hcommas (t :: a) u b (by rw [hsplit, List.cons_append]) hu hne
    have hnext := ih (h.step t) (h.depthStep_le_length hd t) later
    rw [slotsFrom, List.map_cons]
    by_cases hsep : t.kind = .comma ∧ opened = []
    · obtain ⟨ht, rfl⟩ := hsep
      obtain rfl : depth = 0 := Nat.le_zero.1 hd
      have hstay := h.openedStep_comma ht
      rw [ht, hstay] at hnext
      rw [if_pos ⟨ht, rfl⟩, ht, countSlots_separator]
      exact congrArg _ (hnext false)
    · have hzero : ¬ (t.kind = .comma ∧ depth = 0) :=
        fun hc => hcommas [] t ts rfl hc.1 (fun he => hsep ⟨hc.1, he⟩) hc.2
      rw [if_neg hsep, countSlots_content hzero, hnext]

/-- The depth takes no two slots for one.  Inside brackets the slot at hand is filled, and a slot that the depth begins
there is filled by the bracket that closes the outermost of them. -/
theorem Stacked.slotsFrom_le_countSlots (h : Stacked i opened) (hend : Stream.openedFrom i opened ts = [])
    (hd : depth ≤ opened.length) (filled counted : Bool) (hout : opened = [] → counted = filled)
    (hin : opened ≠ [] → filled = true) :
    slotsFrom i opened filled ts ≤ countSlots depth counted (ts.map Token.kind) := by
  induction ts generalizing i opened depth filled counted with
  | nil => rw [hout hend]; exact Nat.le_refl _
  | cons t ts ih =>
    rw [slotsFrom, List.map_cons]
    by_cases hsep : t.kind = .comma ∧ opened = []
    · obtain ⟨ht, rfl⟩ := hsep
      obtain rfl : depth = 0 := Nat.le_zero.1 hd
      have hstay := h.openedStep_comma ht
      have hnext := h.step t
      rw [Stream.openedFrom, hstay] at hend
      rw [hstay] at hnext
      have hrest := ih hnext hend (Nat.le_refl 0) false false (fun _ => rfl) (fun hne => absurd rfl hne)
      rw [if_pos ⟨ht, rfl⟩, ht, countSlots_separator, hout rfl]
      exact Nat.add_le_add_left hrest _
    · rw [if_neg hsep]
      by_cases hcut : t.kind = .comma ∧ depth = 0
      · -- Only the depth ends a slot here.
        obtain ⟨ht, rfl⟩ := hcut
        have hne : opened ≠ [] := fun he => hsep ⟨ht, he⟩
        have hnext := h.step t
        rw [Stream.openedFrom, h.openedStep_comma ht] at hend
        rw [h.openedStep_comma ht] at hnext
        have hrest := ih hnext hend (Nat.zero_le _) true false (fun he => absurd he hne) (fun _ => rfl)
        rw [h.openedStep_comma ht, hin hne, Bool.true_or, ht, countSlots_separator]
        exact Nat.le_trans hrest (Nat.le_add_left _ _)
      · rw [countSlots_content hcut]
        have hlength := h.depthStep_le_length hd t
        refine ih (h.step t) hend hlength _ _ (fun he => ?_) (fun hne => ?_)
        · -- With the last bracket closed, both slots hold that bracket.
          obtain ⟨made, hstep, -⟩ := exists_step i opened t
          rw [he] at hstep
          cases hstep with
          | closes _ top =>
            subst top
            rw [Kind.isCode_of_isClosing (h.closing _ List.mem_cons_self), Bool.or_true, Bool.or_true]
          | passes => rw [hout rfl]
        · obtain ⟨made, hstep, -⟩ := exists_step i opened t
          generalize openedStep i opened t = next at hstep hne
          cases hstep with
          | opens hk => rw [Kind.isCode_of_closing? hk, Bool.or_true]
          | closes _ top => rw [hin (by rw [top]; simp), Bool.true_or]
          | passes => rw [hin hne, Bool.true_or]

/-- The slots that hold something, where the first one may hold something before it begins. -/
def filledFrom (filled : Bool) : List (List (Nat × Token)) → Nat
  | [] => 0
  | slot :: slots => (filled || isFilled slot).toNat + slots.countP isFilled

theorem filledFrom_false (slots : List (List (Nat × Token))) : filledFrom false slots = slots.countP isFilled := by
  cases slots with
  | nil => rfl
  | cons slot slots =>
    rw [filledFrom, Bool.false_or, List.countP_cons, Nat.add_comm]
    cases isFilled slot <;> rfl

theorem filledFrom_modifyHead (filled : Bool) (x : Nat × Token) (slots : List (List (Nat × Token))) :
    filledFrom filled (slots.modifyHead (x :: ·)) = filledFrom (filled || x.2.kind.isCode) slots := by
  cases slots with
  | nil => rfl
  | cons slot slots => simp [filledFrom, isFilled, Bool.or_assoc]

theorem filledFrom_splitOnP {sep : Nat × Token → Bool} (hsep : ∀ a u b, ts = a ++ u :: b →
    (sep (i + a.length, u) = true ↔ u.kind = .comma ∧ openedFrom i opened a = [])) (h : Stacked i opened)
    (filled : Bool) :
    filledFrom filled (((ts.zipIdx i).map fun (t, i) => (i, t)).splitOnP sep) = slotsFrom i opened filled ts := by
  induction ts generalizing i opened filled with
  | nil => simp [filledFrom, isFilled, slotsFrom]
  | cons t ts ih =>
    have hhead : sep (i, t) = true ↔ t.kind = .comma ∧ opened = [] := hsep [] t ts rfl
    have hrest : ∀ a u b, ts = a ++ u :: b →
        (sep (i + 1 + a.length, u) = true ↔ u.kind = .comma ∧ openedFrom (i + 1) (openedStep i opened t) a = []) := by
      intro a u b hsplit
      have hstep := hsep (t :: a) u b (by rw [hsplit, List.cons_append])
      rwa [List.length_cons, Nat.add_comm a.length, ← Nat.add_assoc] at hstep
    have hnext := ih hrest (h.step t)
    rw [List.zipIdx_cons, List.map_cons, List.splitOnP_cons_eq_if_modifyHead, slotsFrom]
    by_cases hc : t.kind = .comma ∧ opened = []
    · obtain ⟨ht, rfl⟩ := hc
      have hslots := hnext false
      rw [h.openedStep_comma ht] at hslots
      have hempty : isFilled [] = false := rfl
      rw [if_pos (hhead.2 ⟨ht, rfl⟩), if_pos ⟨ht, rfl⟩, ← hslots, filledFrom_false, filledFrom, hempty, Bool.or_false]
    · rw [if_neg (fun hs => hc (hhead.1 hs)), if_neg hc, filledFrom_modifyHead, hnext]

/-! ## Between two brackets -/

namespace BracketPair

variable {tokens : List Token} {e : BracketPair tokens} {a b : List Token} {u : Token}

/-- A bracket that is open at a comma is paired behind it. -/
theorem exists_partner_behind (h : e.inner = a ++ u :: b) (hu : u.kind = .comma) {x : Nat × Kind}
    (hx : x ∈ openedFrom (e.lo + 1) [] a) : e.lo < x.1 ∧ x.1 < e.lo + 1 + a.length ∧
      ∃ c ∈ (ofTokens tokens).matching? x.1, e.lo + 1 + a.length < c ∧ c < e.hi := by
  obtain ⟨hlo, hlt, c, hmatch, hle, hhi, k, hk, hclosing⟩ := exists_partner h hx
  refine ⟨hlo, hlt, c, hmatch, Nat.lt_of_le_of_ne hle ?_, hhi⟩
  rintro rfl
  rw [kind?_inner h, hu] at hk
  cases hk
  cases hclosing

/-- A comma is inside brackets if some are open there. -/
theorem inside_iff (h : e.inner = a ++ u :: b) (hu : u.kind = .comma) :
    (ofTokens tokens).Inside e.lo e.hi (e.lo + 1 + a.length) ↔ openedFrom (e.lo + 1) [] a ≠ [] := by
  constructor
  · rintro ⟨o, ho, hlo, c, hc, hpos, -⟩
    obtain ⟨k, hk⟩ := mem_of_partner h hlo ho (Nat.le_of_lt hpos) hc
    exact List.ne_nil_of_mem hk
  · intro hne
    obtain ⟨x, hx⟩ := List.exists_mem_of_ne_nil _ hne
    obtain ⟨hlo, hlt, hpartner⟩ := exists_partner_behind h hu hx
    exact ⟨x.1, hlt, hlo, hpartner⟩

theorem filledSlots_eq (e : BracketPair tokens) :
    (ofTokens tokens).filledSlots e.lo e.hi = slotsFrom (e.lo + 1) [] false e.inner := by
  rw [filledSlots, slots, ← filledFrom_false, between_eq]
  refine filledFrom_splitOnP (fun a u b h => ?_) (stacked_nil _) false
  rw [decide_eq_true_eq]
  refine and_congr_right fun hu => ?_
  rw [inside_iff h hu, Decidable.not_not]

/-- A closing bracket inside other ones that is not stray closes the last of them. -/
theorem exists_top (h : e.inner = a ++ u :: b) (hu : u.kind.isClosing = true)
    (hstray : ¬ (ofTokens tokens).IsStray (e.lo + 1 + a.length)) (hne : openedFrom (e.lo + 1) [] a ≠ []) :
    ∃ o outer, openedFrom (e.lo + 1) [] a = (o, u.kind) :: outer := by
  have hkind := kind?_inner h
  have hclose : u.kind.closing? = none := by
    cases hk : u.kind <;> simp_all [Kind.isClosing, Kind.closing?]
  obtain ⟨o, ho⟩ : ∃ o, (ofTokens tokens).matching? (e.lo + 1 + a.length) = some o := by
    refine Option.ne_none_iff_exists'.1 fun hnone => hstray ⟨?_, hnone⟩
    rw [hkind]
    exact hu
  obtain ⟨front, v, rest, outer, hsplit, hlength, -, htop⟩ :=
    mem_pairsFrom.1 (mem_pairsFrom_of_closing hkind hclose ho)
  rw [Nat.zero_add, ← length_front] at hlength
  obtain ⟨rfl, hrest⟩ := List.append_inj ((tokens_eq h).symm.trans hsplit) hlength
  obtain ⟨rfl, -⟩ := List.cons.inj hrest
  rw [e.top a (u :: b) h] at htop
  cases hs : openedFrom (e.lo + 1) [] a with
  | nil => exact absurd hs hne
  | cons x xs =>
    rw [hs, List.cons_append] at htop
    exact ⟨o, xs, by rw [(List.cons.inj htop).1]⟩

/-- Before a comma inside brackets, the depth has followed the stack from the outermost of them on. -/
theorem depthFrom_ne_zero (hclean : (ofTokens tokens).Undisturbed e.lo e.hi) (h : e.inner = a ++ u :: b)
    (hu : u.kind = .comma) (hne : openedFrom (e.lo + 1) [] a ≠ []) : depthFrom 0 a ≠ 0 := by
  obtain ⟨a₁, v, a₂, k, rfl, hk, hempty, hmem⟩ := exists_outermost hne
  obtain ⟨hlo, hlt, hpartner⟩ := exists_partner_behind h hu hmem
  have hpos : e.lo + 1 + (a₁ ++ v :: a₂).length < e.hi := by
    obtain ⟨c, -, hposc, hchi⟩ := hpartner
    exact Nat.lt_trans hposc hchi
  have hcomma : (ofTokens tokens).kind? (e.lo + 1 + (a₁ ++ v :: a₂).length) = some .comma := by rw [kind?_inner h, hu]
  have hnostray : ¬ (ofTokens tokens).StrayBetween (e.lo + 1 + a₁.length) (e.lo + 1 + (a₁ ++ v :: a₂).length) :=
    fun hstray => hclean _ hpos hcomma ⟨_, hlt, hlo, hstray, hpartner⟩
  have hpush : openedStep (e.lo + 1 + a₁.length) [] v = [(e.lo + 1 + a₁.length, k)] := by simp [openedStep, hk]
  have hstacked := ((stacked_nil (e.lo + 1)).openedFrom a₁).step v
  rw [hempty, hpush] at hstacked
  have hopened : ∀ a₃, openedFrom (e.lo + 1) [] (a₁ ++ v :: a₃) =
      openedFrom (e.lo + 1 + a₁.length + 1) [(e.lo + 1 + a₁.length, k)] a₃ := by
    intro a₃
    rw [openedFrom_append, hempty, openedFrom, hpush]
  have hzero : depthFrom 0 a₁ = 0 := by
    have hle := (stacked_nil (e.lo + 1)).depthFrom_le_length (Nat.le_refl 0) a₁
    rwa [hempty, List.length_nil, Nat.le_zero] at hle
  have hdepth : depthFrom 0 (a₁ ++ v :: a₂) = depthFrom 1 a₂ := by
    rw [depthFrom_append, hzero, depthFrom, List.foldl_cons, depthStep_of_closing hk]
    rfl
  have hclosers : ∀ a₃ w a₄, a₂ = a₃ ++ w :: a₄ → w.kind.isClosing = true → ∃ o outer,
      openedFrom (e.lo + 1 + a₁.length + 1) [(e.lo + 1 + a₁.length, k)] a₃ = (o, w.kind) :: outer := by
    rintro a₃ w a₄ rfl hw
    have hinner : e.inner = (a₁ ++ v :: a₃) ++ w :: (a₄ ++ u :: b) := by rw [h]; simp
    have hbehind : (e.lo + 1 + a₁.length, k) ∈ openedFrom (e.lo + 1) [] ((a₁ ++ v :: a₃) ++ w :: a₄) := by
      simpa using hmem
    have hopen := mem_openedFrom_front hbehind (by simp)
    rw [← hopened]
    refine exists_top hinner hw (fun hstray => hnostray ⟨_, ?_, ?_, hstray⟩) (List.ne_nil_of_mem hopen)
    · simp
    · simp
  have hheight := hstacked.depthFrom_eq_length rfl hclosers
  rw [← hopened] at hheight
  rw [hdepth]
  exact fun hnone => hne (List.length_eq_zero_iff.1 (hheight.symm.trans hnone))

theorem declaredParams_eq {marker : Nat} (h : (ofTokens tokens).findFrom [.openParen] marker = some e.lo)
    (hmatch : (ofTokens tokens).matching? e.lo = some e.hi) :
    (ofTokens tokens).declaredParams marker = countSlots 0 false (e.inner.map Token.kind) := by
  have hkinds := congrArg (List.map Token.kind) (List.zipIdx_map_fst (e.lo + 1) e.inner)
  rw [List.map_map] at hkinds
  rw [declaredParams, h]
  simp only [hmatch]
  rw [between_eq, List.map_map]
  exact congrArg (countSlots 0 false) hkinds

end BracketPair

end Stream

/-- Every slot that holds something is counted, and counted once where in every pair of brackets the commas stand before
the stray ones. -/
theorem declaredParams_filledSlots {tokens : List Token} {marker opening closing : Nat}
    (hopen : (Stream.ofTokens tokens).findFrom [.openParen] marker = some opening)
    (hclose : (Stream.ofTokens tokens).matching? opening = some closing) :
    (Stream.ofTokens tokens).filledSlots opening closing ≤ (Stream.ofTokens tokens).declaredParams marker ∧
    ((Stream.ofTokens tokens).Undisturbed opening closing →
      (Stream.ofTokens tokens).declaredParams marker = (Stream.ofTokens tokens).filledSlots opening closing) := by
  obtain ⟨k, hk, hkind⟩ := Stream.kind?_of_findFrom hopen
  obtain rfl := List.mem_singleton.1 hk
  obtain ⟨e, rfl, rfl⟩ := Stream.exists_bracketPair (Stream.mem_pairsFrom_of_opening hkind rfl hclose)
  have hstacked := Stream.stacked_nil (e.lo + 1)
  rw [Stream.BracketPair.declaredParams_eq hopen hclose, e.filledSlots_eq]
  constructor
  · exact hstacked.slotsFrom_le_countSlots e.level (Nat.le_refl 0) false false (fun _ => rfl) fun h => absurd rfl h
  · intro hclean
    refine (hstacked.slotsFrom_eq_countSlots (Nat.le_refl 0) (fun a u b h hu hne => ?_) false).symm
    exact Stream.BracketPair.depthFrom_ne_zero hclean h hu hne

/-- A stray bracket beside a destructured parameter, and another one behind its comma, change nothing. -/
theorem declaredParams_filledSlots_of_stray :
    ∃ s, s = Stream.ofSource "function f(a = /]/, \x7b b, c = /)/ \x7d) \x7b\x7d".toList ∧
      s.findFrom [.openParen] 0 = some 3 ∧ s.matching? 3 = some 27 ∧ s.Undisturbed 3 27 ∧ s.declaredParams 0 = 2 := by
  refine ⟨_, rfl, by decide +kernel, by decide +kernel, by decide +kernel, ?_⟩
  have hopen : (Stream.ofSource "function f(a = /]/, \x7b b, c = /)/ \x7d) \x7b\x7d".toList).findFrom [.openParen] 0 =
      some 3 := by decide +kernel
  have hclose : (Stream.ofSource "function f(a = /]/, \x7b b, c = /)/ \x7d) \x7b\x7d".toList).matching? 3 =
      some 27 := by decide +kernel
  exact ((declaredParams_filledSlots hopen hclose).2 (by decide +kernel)).trans (by decide +kernel)

/-- A stray bracket before the comma of a destructured parameter makes two parameters of it. -/
theorem declaredParams_stray_before_comma :
    ∃ s, s = Stream.ofSource "function f(\x7b a = /\\)/, b \x7d) \x7b\x7d".toList ∧
      s.findFrom [.openParen] 0 = some 3 ∧ s.matching? 3 = some 19 ∧ s.filledSlots 3 19 = 1 ∧
      s.declaredParams 0 = 2 :=
  ⟨_, rfl, by decide +kernel, by decide +kernel, by decide +kernel, by decide +kernel⟩

end DocLint
