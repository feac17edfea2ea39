import Mathlib.Tactic.LinearCombination
import Mathlib.Tactic.Linarith
import Mathlib.Tactic.Ring

/-!
# Decimals close to a border

A border between two numbers of single precision is an odd multiple of a power of two, and a decimal
is a multiple of a power of ten. How close the two can come without being equal is a question about
fractions: two fractions of determinant one around a ratio leave room for no better fraction with a
denominator below the sum of theirs. For every power of two such a pair is computed and checked. The
gap is always more than a few steps of double precision, but for three decimals.
-/

set_option autoImplicit false

namespace Federation.Decimal

theorem combination {p q p' q' d m : Int} (hdet : p' * q - p * q' = 1) :
    d = (p' * m - q' * d) * p + (q * d - p * m) * p' ∧
      m = (p' * m - q' * d) * q + (q * d - p * m) * q' := by
  constructor
  · linear_combination (-d) * hdet
  · linear_combination (-m) * hdet

/-- Between `d * P` and `m * Q` lie both errors of the pair, unless `d / m` is one of its two
fractions. -/
theorem gap_of_neighbours {p q p' q' P Q d m : Int} (hdet : p' * q - p * q' = 1)
    (hlow : p * P ≤ q * Q) (hhigh : q' * Q ≤ p' * P) (hq : 0 ≤ q) (hq' : 0 ≤ q') (hm : 0 < m)
    (hlt : m < q + q') :
    (∃ a > 0, d = a * p ∧ m = a * q) ∨ (∃ b > 0, d = b * p' ∧ m = b * q') ∨
      d * P + ((q * Q - p * P) + (p' * P - q' * Q)) ≤ m * Q ∨
      m * Q + ((q * Q - p * P) + (p' * P - q' * Q)) ≤ d * P := by
  obtain ⟨hd, hmm⟩ := combination (d := d) (m := m) hdet
  generalize p' * m - q' * d = a at hd hmm
  generalize q * d - p * m = b at hd hmm
  have hdiff : m * Q - d * P = a * (q * Q - p * P) - b * (p' * P - q' * Q) := by
    rw [hd, hmm]
    ring
  rcases lt_trichotomy b 0 with hb | rfl | hb
  · have ha : 0 < a := by nlinarith
    right; right; left
    nlinarith
  · have ha : 0 < a := by nlinarith
    exact Or.inl ⟨a, ha, by linarith, by linarith⟩
  · rcases lt_trichotomy a 0 with ha | rfl | ha
    · right; right; right
      nlinarith
    · exact Or.inr (Or.inl ⟨b, hb, by linarith, by linarith⟩)
    · -- with both fractions in it the denominator is too large
      nlinarith

theorem gap_of_neighbours_nat {p q p' q' P Q d m : Nat} (hdet : p' * q = p * q' + 1)
    (hlow : p * P ≤ q * Q) (hhigh : q' * Q ≤ p' * P) (hm : 0 < m) (hlt : m < q + q') :
    (∃ a > 0, d = a * p ∧ m = a * q) ∨ (∃ b > 0, d = b * p' ∧ m = b * q') ∨
      d * P + ((q * Q - p * P) + (p' * P - q' * Q)) ≤ m * Q ∨
      m * Q + ((q * Q - p * P) + (p' * P - q' * Q)) ≤ d * P := by
  have hdet' : (p' : Int) * q - p * q' = 1 := by
    have h : ((p' * q : Nat) : Int) = (p * q' + 1 : Nat) := congrArg _ hdet
    push_cast at h
    linarith
  rcases gap_of_neighbours (P := P) (Q := Q) (d := d) (m := m) hdet' (by exact_mod_cast hlow)
    (by exact_mod_cast hhigh) (by omega) (by omega) (by omega) (by omega) with
    ⟨a, ha, hd, hm⟩ | ⟨b, hb, hd, hm⟩ | h | h
  · lift a to Nat using le_of_lt ha
    exact Or.inl ⟨a, by omega, by exact_mod_cast hd, by exact_mod_cast hm⟩
  · lift b to Nat using le_of_lt hb
    exact Or.inr (Or.inl ⟨b, by omega, by exact_mod_cast hd, by exact_mod_cast hm⟩)
  · right; right; left
    zify [hlow, hhigh]
    exact h
  · right; right; right
    zify [hlow, hhigh]
    exact h

/-- Two fractions, the first at most and the second at least the ratio that they are close to. -/
structure Neighbours where
  lowTop : Nat
  lowBottom : Nat
  highTop : Nat
  highBottom : Nat

namespace Neighbours

def lowError (P Q : Nat) (n : Neighbours) : Nat := n.lowBottom * Q - n.lowTop * P

def highError (P Q : Nat) (n : Neighbours) : Nat := n.highTop * P - n.highBottom * Q

def repeats (error taken room bottom : Nat) : Nat :=
  if taken = 0 then room / bottom
  else if bottom = 0 then error / taken
  else min (error / taken) (room / bottom)

def closer (P Q limit : Nat) (n : Neighbours) : Neighbours :=
  if n.highError P Q ≤ n.lowError P Q then
    let k := repeats (n.lowError P Q) (n.highError P Q) (limit - 1 - n.lowBottom) n.highBottom
    { n with lowTop := n.lowTop + k * n.highTop, lowBottom := n.lowBottom + k * n.highBottom }
  else
    let k := repeats (n.highError P Q) (n.lowError P Q) (limit - 1 - n.highBottom) n.lowBottom
    { n with highTop := n.highTop + k * n.lowTop, highBottom := n.highBottom + k * n.lowBottom }

def refine (P Q limit : Nat) : (fuel : Nat) → Neighbours → Neighbours
  | 0, n => n
  | fuel + 1, n =>
    if n.lowBottom + n.highBottom < limit then refine P Q limit fuel (n.closer P Q limit) else n

end Neighbours

/-- Half a step of the grid where neighbours are `2 ^ step` units apart, in units of `10 ^ (-150)`:
every border there is an odd multiple of it. -/
def halfStep (step : Nat) : Nat := 2 ^ step * 5 ^ 150

def leastPower (step : Nat) : Nat := (30103 * step + 10484549) / 100000 + 1

/-- A border and a decimal closer to it than the others. -/
def closeCalls : List (Nat × Nat × Nat) :=
  [(42, 7038531, 22841339), (43, 14077062, 22841339), (100, 25645849, 28874659)]

/-- No odd multiple of the fraction is a border and a decimal that are close and not equal. -/
def isClear (step top bottom error : Nat) : Bool :=
  error == 0 || decide (halfStep step ≤ 2 ^ 27 * error) || bottom % 2 == 0 ||
    (decide (2 ^ 25 ≤ 3 * bottom) &&
      ((decide (bottom ≤ 2 ^ 24) && decide (0 < step)) || closeCalls.contains (step, top, bottom)))

def witnesses (step : Nat) : Neighbours :=
  Neighbours.refine (10 ^ leastPower step) (halfStep step) (2 ^ 25) 64 ⟨0, 1, 1, 0⟩

structure Settles (step : Nat) (n : Neighbours) : Prop where
  least : 10 ^ (leastPower step - 1) * 2 ^ 27 < halfStep step * (2 ^ 27 - 1)
  determinant : n.highTop * n.lowBottom = n.lowTop * n.highBottom + 1
  low : n.lowTop * 10 ^ leastPower step ≤ n.lowBottom * halfStep step
  high : n.highBottom * halfStep step ≤ n.highTop * 10 ^ leastPower step
  limit : 2 ^ 25 ≤ n.lowBottom + n.highBottom
  apart : halfStep step ≤ 2 ^ 27 * (n.lowError (10 ^ leastPower step) (halfStep step)
    + n.highError (10 ^ leastPower step) (halfStep step))
  lowClear : isClear step n.lowTop n.lowBottom
    (n.lowError (10 ^ leastPower step) (halfStep step)) = true
  highClear : isClear step n.highTop n.highBottom
    (n.highError (10 ^ leastPower step) (halfStep step)) = true

instance (step : Nat) (n : Neighbours) : Decidable (Settles step n) :=
  decidable_of_iff
    (10 ^ (leastPower step - 1) * 2 ^ 27 < halfStep step * (2 ^ 27 - 1) ∧
      n.highTop * n.lowBottom = n.lowTop * n.highBottom + 1 ∧
      n.lowTop * 10 ^ leastPower step ≤ n.lowBottom * halfStep step ∧
      n.highBottom * halfStep step ≤ n.highTop * 10 ^ leastPower step ∧
      2 ^ 25 ≤ n.lowBottom + n.highBottom ∧
      halfStep step ≤ 2 ^ 27 * (n.lowError (10 ^ leastPower step) (halfStep step)
        + n.highError (10 ^ leastPower step) (halfStep step)) ∧
      isClear step n.lowTop n.lowBottom
        (n.lowError (10 ^ leastPower step) (halfStep step)) = true ∧
      isClear step n.highTop n.highBottom
        (n.highError (10 ^ leastPower step) (halfStep step)) = true)
    ⟨fun ⟨a, b, c, d, e, g, h, i⟩ => ⟨a, b, c, d, e, g, h, i⟩,
      fun ⟨a, b, c, d, e, g, h, i⟩ => ⟨a, b, c, d, e, g, h, i⟩⟩

theorem witnesses_settle : ∀ step < 254, Settles step (witnesses step) := by decide +kernel

theorem close_of_isClear {step top bottom error a d m : Nat}
    (h : isClear step top bottom error = true) (ha : 0 < a) (hd : d = a * top)
    (hm : m = a * bottom) (hodd : m % 2 = 1) (hlt : m < 2 ^ 25) (hlow : 0 < step → 2 ^ 24 < m) :
    error = 0 ∨ halfStep step ≤ 2 ^ 27 * (a * error) ∨ (step, d, m) ∈ closeCalls := by
  simp only [isClear, Bool.or_eq_true, Bool.and_eq_true, beq_iff_eq, decide_eq_true_eq,
    List.contains_iff_mem] at h
  rcases h with ((h | h) | h) | ⟨hthree, h⟩
  · exact Or.inl h
  · exact Or.inr (Or.inl (le_trans h (Nat.mul_le_mul_left _ (Nat.le_mul_of_pos_left _ ha))))
  · rw [hm, Nat.mul_mod, h] at hodd
    simp at hodd
  · have hone : a = 1 := by
      rcases Nat.lt_or_ge a 3 with hlt3 | hge
      · rcases Nat.lt_or_ge a 2 with hlt2 | hge2
        · omega
        · have htwo : a = 2 := by omega
          rw [hm, htwo] at hodd
          omega
      · have := Nat.mul_le_mul_right bottom hge
        omega
    rw [hone, Nat.one_mul] at hd hm
    rcases h with ⟨hsmall, hpos⟩ | h
    · have := hlow hpos
      omega
    · rw [hd, hm]
      exact Or.inr (Or.inr h)

/-- A decimal of no small power of ten is a border, or clearly below it, or clearly above it, or one
of three. -/
theorem gap_to_border {step m d power : Nat} (hs : step < 254) (hodd : m % 2 = 1)
    (hlt : m < 2 ^ 25) (hlow : 0 < step → 2 ^ 24 < m)
    (hp : (2 ^ 27 - 1) * halfStep step ≤ 2 ^ 27 * 10 ^ power) :
    d * 10 ^ power = m * halfStep step ∨
      2 ^ 27 * (d * 10 ^ power) + halfStep step ≤ 2 ^ 27 * (m * halfStep step) ∨
      2 ^ 27 * (m * halfStep step) + halfStep step ≤ 2 ^ 27 * (d * 10 ^ power) ∨
      (leastPower step ≤ power ∧ (step, d * 10 ^ (power - leastPower step), m) ∈ closeCalls) := by
  obtain ⟨hleast, hdet, hl, hh, hlim, hapart, hcl, hch⟩ := witnesses_settle step hs
  generalize witnesses step = n at *
  have hpower : leastPower step ≤ power := by
    by_contra hc
    have hmono : 10 ^ power ≤ 10 ^ (leastPower step - 1) :=
      Nat.pow_le_pow_right (by decide) (by omega)
    omega
  have hdp : d * 10 ^ (power - leastPower step) * 10 ^ leastPower step = d * 10 ^ power := by
    rw [Nat.mul_assoc, ← Nat.pow_add, Nat.sub_add_cancel hpower]
  rw [← hdp]
  generalize d * 10 ^ (power - leastPower step) = c
  simp only [Neighbours.lowError, Neighbours.highError] at hapart hcl hch
  generalize 10 ^ leastPower step = P at *
  generalize hQ : halfStep step = Q at *
  rcases gap_of_neighbours_nat (d := c) (m := m) hdet hl hh (by omega) (by omega) with
    ⟨a, ha, hc, hm⟩ | ⟨b, hb, hc, hm⟩ | h | h
  · -- the pair is a multiple of the lower fraction
    have hmul : m * Q = c * P + a * (n.lowBottom * Q - n.lowTop * P) := by
      rw [hc, hm, Nat.mul_assoc, Nat.mul_assoc, ← Nat.mul_add, Nat.add_sub_cancel' hl]
    rcases close_of_isClear hcl ha hc hm hodd hlt hlow with he | he | he
    · rw [he] at hmul
      omega
    · rw [hQ] at he
      omega
    · exact Or.inr (Or.inr (Or.inr ⟨hpower, he⟩))
  · have hmul : c * P = m * Q + b * (n.highTop * P - n.highBottom * Q) := by
      rw [hc, hm, Nat.mul_assoc, Nat.mul_assoc, ← Nat.mul_add, Nat.add_sub_cancel' hh]
    rcases close_of_isClear hch hb hc hm hodd hlt hlow with he | he | he
    · rw [he] at hmul
      omega
    · rw [hQ] at he
      omega
    · exact Or.inr (Or.inr (Or.inr ⟨hpower, he⟩))
  · omega
  · omega

end Federation.Decimal
