import DocLint.Proofs.Matching
import DocLint.Proofs.ParamSlots

/-!
# Parameter lists with brackets in order

A parameter list is made of slots with commas between them, where a slot has its own commas inside brackets only.  The
parentheses around it belong together whatever is open around the function, and the depth, which is back at zero at the
end of each slot, tells the commas between slots from those inside.  So the slots that hold something are counted, each
once.
-/
namespace DocLint

namespace Stream

/-- Tokens without a comma outside of brackets: what stands before a comma is not well bracketed. -/
def Undivided (ts : List Token) : Prop := ∀ a u b, ts = a ++ u :: b → u.kind = .comma → ¬ WellBracketed a

section Undivided

variable {t closing : Token} {inner ts : List Token}

theorem undivided_iff : Undivided ts ↔ ∀ p : Fin ts.length, ts[p].kind = .comma → ¬ WellBracketed (ts.take p) := by
  constructor
  · intro h p
    refine h (ts.take p) ts[p] (ts.drop (p + 1)) ?_
    rw [Fin.getElem_fin, List.getElem_cons_drop, List.take_append_drop]
  · rintro h a u b rfl hu
    have hcut := h ⟨a.length, by simp⟩
    rw [Fin.getElem_fin] at hcut
    simp only [List.getElem_append_right (Nat.le_refl a.length), Nat.sub_self, List.getElem_cons_zero,
      List.take_left] at hcut
    exact hcut hu

instance : DecidablePred Undivided := fun _ => decidable_of_iff _ undivided_iff.symm

theorem Undivided.ne_comma (h : Undivided (t :: ts)) : t.kind ≠ .comma := fun ht => h [] t ts rfl ht .nil

theorem Undivided.of_plain (h : Undivided (t :: ts)) (hk : t.kind.isBracket = false) : Undivided ts := by
  rintro a u b rfl hu ha
  exact h (t :: a) u b rfl hu (.plain hk ha)

theorem Undivided.of_pair (h : Undivided (t :: (inner ++ closing :: ts))) (hk : t.kind.closing? = some closing.kind)
    (hinner : WellBracketed inner) : Undivided ts := by
  rintro a u b rfl hu ha
  exact h (t :: (inner ++ closing :: a)) u b (by simp) hu (.pair hk hinner ha)

end Undivided

/-! ## Counting slots -/

/-- Does a slot hold anything but blanks and doc comments? -/
def holdsCode (ts : List Token) : Bool := ts.any fun t => t.kind.isCode

@[simp] theorem holdsCode_nil : holdsCode [] = false := rfl

@[simp] theorem holdsCode_cons (t : Token) (ts : List Token) :
    holdsCode (t :: ts) = (t.kind.isCode || holdsCode ts) := rfl

@[simp] theorem holdsCode_append (ts us : List Token) : holdsCode (ts ++ us) = (holdsCode ts || holdsCode us) :=
  List.any_append

theorem depthStep_of_plain {depth : Nat} {k : Kind} (hk : k.isBracket = false) : depthStep depth k = depth := by
  obtain ⟨hopen, hclose⟩ := Kind.isBracket_eq_false hk
  simp [depthStep, hopen, hclose]

/-- Well-bracketed tokens end at the depth at which they begin, and no slot ends in them unless there is a comma
outside of brackets. -/
theorem WellBracketed.countSlots_append {ts : List Token} (h : WellBracketed ts) {depth : Nat}
    (hcommas : depth = 0 → Undivided ts) (filled : Bool) (ks : List Kind) :
    countSlots depth filled (ts.map Token.kind ++ ks) = countSlots depth (filled || holdsCode ts) ks := by
  induction h generalizing depth filled ks with
  | nil => simp
  | @plain t ts hk _ ih =>
    have hcontent : ¬ (t.kind = .comma ∧ depth = 0) := fun hc => (hcommas hc.2).ne_comma hc.1
    have hrest : depth = 0 → Undivided ts := fun hd => (hcommas hd).of_plain hk
    rw [List.map_cons, List.cons_append, countSlots_content hcontent, depthStep_of_plain hk, ih hrest, holdsCode_cons,
      Bool.or_assoc]
  | @pair opening closing inner ts hk hinner _ ihinner ihrest =>
    have hopening : ¬ (opening.kind = .comma ∧ depth = 0) := by
      rintro ⟨ht, -⟩
      rw [ht] at hk
      cases hk
    have hclosing : ¬ (closing.kind = .comma ∧ depth + 1 = 0) := fun hc => absurd hc.2 (Nat.succ_ne_zero depth)
    have hwithin : depth + 1 = 0 → Undivided inner := fun hd => absurd hd (Nat.succ_ne_zero depth)
    have hrest : depth = 0 → Undivided ts := fun hd => (hcommas hd).of_pair hk hinner
    have hback : depthStep (depth + 1) closing.kind = depth := by
      have hc := Kind.isClosing_of_closing? hk
      rw [depthStep_of_isClosing (Kind.closing?_of_isClosing hc) hc, Nat.add_sub_cancel]
    have hassoc : (opening :: (inner ++ closing :: ts)).map Token.kind ++ ks =
        opening.kind :: (inner.map Token.kind ++ closing.kind :: (ts.map Token.kind ++ ks)) := by simp
    rw [hassoc, countSlots_content hopening, depthStep_of_closing hk, ihinner hwithin, countSlots_content hclosing,
      hback, ihrest hrest]
    simp [Bool.or_assoc]

/-- A slot of a parameter list. -/
structure Slot where
  tokens : List Token
  bracketed : WellBracketed tokens
  undivided : Undivided tokens

theorem Slot.countSlots_append (slot : Slot) (filled : Bool) (ks : List Kind) :
    countSlots 0 filled (slot.tokens.map Token.kind ++ ks) = countSlots 0 (filled || holdsCode slot.tokens) ks :=
  slot.bracketed.countSlots_append (fun _ => slot.undivided) filled ks

/-- A slot after the first, with the comma before it. -/
structure FurtherSlot extends Slot where
  comma : Token
  separates : comma.kind = .comma

/-- The tokens of a parameter list. -/
def slotTokens (first : Slot) (further : List FurtherSlot) : List Token :=
  first.tokens ++ further.flatMap fun x => x.comma :: x.tokens

theorem slotTokens_cons (first : Slot) (x : FurtherSlot) (further : List FurtherSlot) :
    slotTokens first (x :: further) = first.tokens ++ x.comma :: slotTokens x.toSlot further := by
  simp [slotTokens]

theorem WellBracketed.append {ts us : List Token} (h : WellBracketed ts) (hus : WellBracketed us) :
    WellBracketed (ts ++ us) := by
  induction h with
  | nil => exact hus
  | plain hk _ ih => exact .plain hk ih
  | @pair opening closing inner ts hk hinner _ _ ih =>
    have hassoc : opening :: (inner ++ closing :: ts) ++ us = opening :: (inner ++ closing :: (ts ++ us)) := by simp
    rw [hassoc]
    exact .pair hk hinner ih

theorem wellBracketed_slotTokens (first : Slot) (further : List FurtherSlot) :
    WellBracketed (slotTokens first further) := by
  induction further generalizing first with
  | nil => simpa [slotTokens] using first.bracketed
  | cons x further ih =>
    have hcomma : x.comma.kind.isBracket = false := by rw [x.separates]; rfl
    rw [slotTokens_cons]
    exact first.bracketed.append (.plain hcomma (ih x.toSlot))

theorem countSlots_slotTokens (first : Slot) (further : List FurtherSlot) :
    countSlots 0 false ((slotTokens first further).map Token.kind) =
      (first :: further.map FurtherSlot.toSlot).countP fun slot => holdsCode slot.tokens := by
  induction further generalizing first with
  | nil =>
    have hslot := first.countSlots_append false []
    rw [List.append_nil, Bool.false_or] at hslot
    rw [slotTokens, List.flatMap_nil, List.append_nil, hslot, countSlots]
    cases hc : holdsCode first.tokens <;> simp [hc]
  | cons x further ih =>
    rw [slotTokens_cons, List.map_append, List.map_cons, x.separates, first.countSlots_append, countSlots_separator, ih,
      Bool.false_or, List.map_cons, List.countP_cons (a := first), Nat.add_comm]
    cases holdsCode first.tokens <;> rfl

/-! ## Functions -/

/-- A function with its parameter list, among any other tokens. -/
structure ParamDeclaration where
  before : List Token
  keyword : Token
  mid : List Token
  opening : Token
  first : Slot
  further : List FurtherSlot
  closing : Token
  after : List Token
  marks : keyword.kind = .functionKeyword
  ahead : Lacks [.openParen] mid
  opens : opening.kind = .openParen
  closes : closing.kind = .closeParen

namespace ParamDeclaration

variable (d : ParamDeclaration)

def tokens : List Token :=
  d.before ++ d.keyword :: (d.mid ++ d.opening :: (slotTokens d.first d.further ++ d.closing :: d.after))

/-- The position of the keyword. -/
abbrev marker : Nat := d.before.length

def slots : List Slot := d.first :: d.further.map FurtherSlot.toSlot

/-- The number of slots that hold something. -/
def filled : Nat := d.slots.countP fun slot => holdsCode slot.tokens

/-- A comment that documents the function. -/
def view (path : Path) (b : Block) : BlockView := ⟨⟨path, ofTokens d.tokens⟩, b, .functionHeader d.marker⟩

/-- The parentheses around the slots belong together. -/
theorem partners : Partners d.tokens (d.before ++ d.keyword :: d.mid).length
    ((d.before ++ d.keyword :: d.mid).length + 1 + (slotTokens d.first d.further).length) := by
  refine ⟨_, d.opening, _, d.closing, d.after, ?_, ?_, wellBracketed_slotTokens d.first d.further, rfl, rfl⟩
  · simp [tokens]
  · rw [d.opens, d.closes]
    rfl

theorem findFrom_openParen :
    (ofTokens d.tokens).findFrom [.openParen] d.marker = some (d.before ++ d.keyword :: d.mid).length := by
  have hsearch : Lacks [.openParen] (d.keyword :: d.mid) := by
    intro u hu
    cases hu with
    | head => rw [d.marks]; decide
    | tail _ hu => exact d.ahead u hu
  rw [List.length_append]
  exact findFrom_eq_some hsearch (by simp [d.opens])

theorem declaredParams_eq : (ofTokens d.tokens).declaredParams d.marker = d.filled := by
  have hprefix : (slotTokens d.first d.further).map Token.kind <+:
      (slotTokens d.first d.further ++ d.closing :: d.after).map Token.kind := ⟨_, List.map_append.symm⟩
  have hkinds := map_kind_between (d.before ++ d.keyword :: d.mid) _ d.opening hprefix
  have htokens : d.before ++ d.keyword :: d.mid ++ d.opening :: (slotTokens d.first d.further ++ d.closing :: d.after) =
      d.tokens := by simp [tokens]
  rw [List.length_map, htokens] at hkinds
  rw [declaredParams, findFrom_openParen]
  simp only [matching?_of_mem_pairsFrom d.partners.mem_pairsFrom, hkinds]
  exact countSlots_slotTokens d.first d.further

end ParamDeclaration

end Stream

/-- A function declares as many parameters as slots of its list hold something, and its comment is at fault if it has
another number of `@param` tags. -/
theorem paramCount_declaration (d : Stream.ParamDeclaration) :
    (Stream.ofTokens d.tokens).declaredParams d.marker = d.filled ∧ ∀ (path : Path) (b : Block),
      (Rule.paramCount.check (d.view path b) = [] ↔ d.filled = b.tagCount "@param") ∧
      (d.filled ≠ b.tagCount "@param" → ∃ v, Rule.paramCount.check (d.view path b) = [v] ∧ v.severity = .error ∧
        v.location = (d.view path b).location ∧ v.args = [toString d.filled, toString (b.tagCount "@param")]) := by
  refine ⟨d.declaredParams_eq, fun path b => ?_⟩
  have hcheck : Rule.paramCount.check (d.view path b) = if d.filled = b.tagCount "@param" then [] else
      [Rule.paramCountViolation (d.view path b).location d.filled (b.tagCount "@param")] := by
    rw [← d.declaredParams_eq]
    rfl
  rw [hcheck]
  constructor
  · constructor
    · intro h
      by_contra hne
      rw [if_neg hne] at h
      cases h
    · intro h
      rw [if_pos h]
  · intro hne
    rw [if_neg hne]
    exact ⟨_, rfl, rfl, rfl, rfl⟩

/-- Between brackets that belong to nothing: a destructured parameter, blanks alone, a parameter with a call in it and a
doc comment behind it, and nothing at all make two parameters. -/
theorem paramCount_declaration_among_strays :
    ∃ d : Stream.ParamDeclaration, d.before.map Token.kind = [.closeParen, .openBracket] ∧
      d.slots.map (·.tokens.map Token.kind) = [[.openBrace, .identifier, .comma, .identifier, .closeBrace],
        [.whitespace], [.identifier, .openParen, .literal, .comma, .literal, .closeParen, .docOpen, .docString,
          .docClose], []] ∧
      d.after.map Token.kind = [.openBrace, .closeBracket] ∧ (Stream.ofTokens d.tokens).declaredParams 2 = 2 := by
  let token (k : Kind) : Token := ⟨k, "", .start⟩
  let d : Stream.ParamDeclaration :=
    { before := [token .closeParen, token .openBracket]
      keyword := token .functionKeyword
      mid := [token .whitespace]
      opening := token .openParen
      first := ⟨[.openBrace, .identifier, .comma, .identifier, .closeBrace].map token, by decide, by decide⟩
      further :=
        [⟨⟨[token .whitespace], by decide, by decide⟩, token .comma, rfl⟩,
          ⟨⟨[.identifier, .openParen, .literal, .comma, .literal, .closeParen, .docOpen, .docString,
            .docClose].map token, by decide, by decide⟩, token .comma, rfl⟩,
          ⟨⟨[], by decide, by decide⟩, token .comma, rfl⟩]
      closing := token .closeParen
      after := [token .openBrace, token .closeBracket]
      marks := rfl
      ahead := by simp [Stream.Lacks, token]
      opens := rfl
      closes := rfl }
  exact ⟨d, rfl, rfl, rfl, (paramCount_declaration d).1⟩

end DocLint
