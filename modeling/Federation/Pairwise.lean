import Federation.Matrix

/-!
# Tables of pairs

A symmetric quantity is computed once for each pair of list members and stored for both orders.
-/

set_option autoImplicit false

namespace Federation.Pairwise

variable {β γ : Type}

/-- For each member a row with the quantity for it and every later member. Pairs are visited in
the order of the list. -/
def upper {m : Type → Type} [Monad m] (quantity : β → β → m γ) : List β → m (List (List γ))
  | [] => pure []
  | x :: xs => do
    let row ← xs.mapM (quantity x)
    let rows ← upper quantity xs
    return row :: rows

def lookup (default : γ) (rows : List (List γ)) (i j : Nat) : γ :=
  ((rows[min i j]?.getD [])[max i j - min i j - 1]?).getD default

def symmetric (diagonal : γ) (rows : List (List γ)) : Matrix γ :=
  .ofFn rows.length rows.length fun i j =>
    if i = j then diagonal else lookup diagonal rows i j

def table {m : Type → Type} [Monad m] (diagonal : γ) (quantity : β → β → m γ) (xs : List β) :
    m (Matrix γ) :=
  symmetric diagonal <$> upper quantity xs

end Federation.Pairwise
