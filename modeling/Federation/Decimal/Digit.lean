/-!
# Decimal digits

The digits of a natural number, highest first, and the number that a list of digits names. Reading
the digits of a number gives the number back.
-/

set_option autoImplicit false

namespace Federation

abbrev Digit := Fin 10

namespace Digit

def zero : Digit := ⟨0, by decide⟩

def toChar (d : Digit) : Char := Nat.digitChar d.val

def ofChar? (c : Char) : Option Digit :=
  if h : '0'.toNat ≤ c.toNat ∧ c.toNat - '0'.toNat < 10 then some ⟨c.toNat - '0'.toNat, h.2⟩
  else none

theorem ofChar?_toChar : ∀ d : Digit, ofChar? d.toChar = some d := by decide

end Digit

namespace Decimal

def tens (k : Nat) : Nat := Nat.pow 10 k

def digits (n : Nat) : List Digit :=
  if h : n < 10 then [⟨n, h⟩] else digits (n / 10) ++ [⟨n % 10, Nat.mod_lt _ (by decide)⟩]

def value (ds : List Digit) : Nat := ds.foldl (fun n d => 10 * n + d.val) 0

theorem value_append_singleton (ds : List Digit) (d : Digit) :
    value (ds ++ [d]) = 10 * value ds + d.val := by
  simp [value]

theorem value_digits (n : Nat) : value (digits n) = n := by
  fun_induction digits n with
  | case1 n h => simp [value]
  | case2 n h ih =>
    rw [value_append_singleton, ih]
    exact Nat.div_add_mod n 10

theorem digits_ne_nil (n : Nat) : digits n ≠ [] := by
  unfold digits
  split <;> simp

def toText (ds : List Digit) : String := String.ofList (ds.map Digit.toChar)

end Decimal

end Federation
