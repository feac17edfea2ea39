/-!
# Counts

Clients, rounds and dimensions are counted in 64-bit words. Bounds that would leave them stop at the
greatest count; a count that goes one past it starts again; checked sums and differences that would
leave them do not exist.
-/

set_option autoImplicit false

namespace Federation.Count

def bound : Nat := 1 <<< 64

def saturate (n : Nat) : Nat := min n (bound - 1)

def next (n : Nat) : Nat := (n + 1) % bound

def add? (m n : Nat) : Option Nat := if m + n < bound then some (m + n) else none

def sub? (m n : Nat) : Option Nat := if n ≤ m then some (m - n) else none

theorem saturate_of_lt {n : Nat} (h : n < bound) : saturate n = n := by
  unfold saturate
  omega

theorem next_of_lt {n : Nat} (h : n + 1 < bound) : next n = n + 1 := Nat.mod_eq_of_lt h

end Federation.Count
