import DocLint.Text

/-!
# Messages with places for arguments

A template has places `%s`.  The first argument goes to the first place, and so on; a place without an
argument stays as it is, and an argument is never looked into.
-/
namespace DocLint.Message

/-- The text of a template with its arguments. -/
def fill : List Char → List (List Char) → List Char
  | '%' :: 's' :: rest, a :: args => a ++ fill rest args
  | '%' :: 's' :: rest, [] => '%' :: 's' :: fill rest []
  | c :: rest, args => c :: fill rest args
  | [], _ => []

def render (template : String) (args : List String) : String :=
  String.ofList (fill template.toList (args.map String.toList))

/-- What stands in a template where an argument goes. -/
def place : List Char := ['%', 's']

theorem fill_place (rest : List Char) (args : List (List Char)) :
    fill (place ++ rest) args = args.headD place ++ fill rest args.tail := by
  cases args <;> rfl

theorem fill_cons {c : Char} {rest : List Char} (h : ¬place <+: c :: rest) (args : List (List Char)) :
    fill (c :: rest) args = c :: fill rest args := by
  have hne : ∀ u, c = '%' → rest = 's' :: u → False := by
    rintro u rfl rfl
    exact h ⟨u, rfl⟩
  rw [fill]
  · intro u _ _ _ hc hrest
    exact hne u hc hrest
  · intro u _ hc hrest
    exact hne u hc hrest

/-- A text in which no place begins is kept, whatever follows it. -/
theorem fill_append {t u : List Char} (h : ∀ x c y, t = x ++ c :: y → ¬place <+: c :: (y ++ u))
    (args : List (List Char)) : fill (t ++ u) args = t ++ fill u args := by
  induction t with
  | nil => rfl
  | cons c t ih =>
    have hhead : ¬place <+: c :: (t ++ u) := h [] c t rfl
    rw [List.cons_append, fill_cons hhead, ih fun x d y ht => h (c :: x) d y (by rw [ht]; rfl), List.cons_append]

theorem toList_render (template : String) (args : List String) :
    (render template args).toList = fill template.toList (args.map String.toList) := by
  simp [render]

end DocLint.Message
