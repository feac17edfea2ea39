import Federation.Json.Number
import Federation.Proofs.Decimal.Shortest
import Mathlib.Data.List.Induction

/-!
# What a written number is scaled from

A reader gathers the digits of a literal into one significand and counts the places after the
point. For the literal of a decimal that fits a word it finds the decimal again, except that a whole
number was given a zero after the point and comes back with that zero taken along.
-/

set_option autoImplicit false

namespace Federation

namespace Decimal

theorem value_append (ds es : List Digit) :
    value (ds ++ es) = value ds * 10 ^ es.length + value es := by
  induction es using List.reverseRecOn with
  | nil => simp [value]
  | append_singleton es e ih =>
    rw [← List.append_assoc, value_append_singleton, ih, value_append_singleton,
      List.length_append, List.length_singleton, Nat.pow_succ]
    ring

theorem value_lt (ds : List Digit) : value ds < 10 ^ ds.length := by
  induction ds using List.reverseRecOn with
  | nil => simp [value]
  | append_singleton ds d ih =>
    rw [value_append_singleton, List.length_append, List.length_singleton, Nat.pow_succ]
    omega

theorem value_zeros (k : Nat) : value (List.replicate k Digit.zero) = 0 := by
  induction k with
  | zero => rfl
  | succ k ih =>
    rw [List.replicate_succ', value_append_singleton, ih]
    rfl

theorem value_drop (ds : List Digit) (k : Nat) :
    value (ds.drop k) = value ds % 10 ^ (ds.length - k) := by
  have h := value_append (ds.take k) (ds.drop k)
  rw [List.take_append_drop, List.length_drop] at h
  have hlt : value (ds.drop k) < 10 ^ (ds.length - k) := by
    simpa using value_lt (ds.drop k)
  rw [h, Nat.mul_add_mod_self_right, Nat.mod_eq_of_lt hlt]

theorem lt_pow_length_digits (n : Nat) : n < 10 ^ (digits n).length := by
  have h := value_lt (digits n)
  rwa [value_digits] at h

end Decimal

namespace Json.Number

open Decimal (digits value value_append value_lt value_zeros value_digits value_drop tens tens_eq)

theorem gather_eq {significand : Nat} {ds : List Digit}
    (h : significand * 10 ^ ds.length + value ds < Count.bound) :
    gather significand ds = (significand * 10 ^ ds.length + value ds, []) := by
  induction ds generalizing significand with
  | nil => simp [gather, value]
  | cons d ds ih =>
    have hv : value (d :: ds) = d.val * 10 ^ ds.length + value ds := by
      have hs := value_append [d] ds
      simpa [value] using hs
    have he : significand * 10 ^ (d :: ds).length + value (d :: ds)
        = (10 * significand + d.val) * 10 ^ ds.length + value ds := by
      rw [hv, List.length_cons, Nat.pow_succ]
      ring
    rw [he] at h ⊢
    have hlt : 10 * significand + d.val < Count.bound := by
      refine lt_of_le_of_lt ?_ h
      exact le_trans (Nat.le_mul_of_pos_right _ (Nat.pow_pos (by decide))) (Nat.le_add_right _ _)
    rw [gather, if_pos hlt, ih h]

theorem scaling_eq {n : Number}
    (h : n.whole * 10 ^ n.fraction.length + value n.fraction < Count.bound) :
    n.scaling = (n.whole * 10 ^ n.fraction.length + value n.fraction,
      -(n.fraction.length : Int) + n.exponent.getD 0) := by
  have hw : n.whole < Count.bound := by
    refine lt_of_le_of_lt ?_ h
    exact le_trans (Nat.le_mul_of_pos_right _ (Nat.pow_pos (by decide))) (Nat.le_add_right _ _)
  have hd : 0 * 10 ^ (digits n.whole).length + value (digits n.whole) = n.whole := by
    rw [value_digits]
    omega
  have hg : gather 0 (digits n.whole) = (n.whole, []) := by
    rw [gather_eq (by rwa [hd]), hd]
  simp only [scaling, hg, gather_eq h]
  simp

variable {window : Window} {negative : Bool} {d : Decimal}

def places (k : Nat) (ds : List Digit) : List Digit :=
  let padded := List.replicate (k - ds.length) Digit.zero ++ ds
  padded.drop (padded.length - k)

theorem length_places (k : Nat) (ds : List Digit) : (places k ds).length = k := by
  simp only [places, List.length_drop, List.length_append, List.length_replicate]
  omega

theorem value_places (k : Nat) (ds : List Digit) : value (places k ds) = value ds % 10 ^ k := by
  have hl : (List.replicate (k - ds.length) Digit.zero ++ ds).length
      - ((List.replicate (k - ds.length) Digit.zero ++ ds).length - k) = k := by
    simp only [List.length_append, List.length_replicate]
    omega
  rw [places, value_drop, hl, value_append, value_zeros, Nat.zero_mul, Nat.zero_add]

theorem ofDecimal_cases (window : Window) (negative : Bool) (d : Decimal) :
    (0 ≤ d.exponent ∧ d.exponent + (digits d.significand).length - 1 ≤ window.last ∧
      ofDecimal window negative d
        = ⟨negative, d.significand * tens d.exponent.toNat, [Digit.zero], none⟩) ∨
    (d.exponent < 0 ∧ ofDecimal window negative d
      = ⟨negative, d.significand / tens (-d.exponent).toNat,
          places (-d.exponent).toNat (digits d.significand), none⟩) ∨
    ofDecimal window negative d
      = ⟨negative, value ((digits d.significand).take 1), (digits d.significand).drop 1,
          some (d.exponent + (digits d.significand).length - 1)⟩ := by
  by_cases hw : window.first ≤ d.exponent + (digits d.significand).length - 1 ∧
      d.exponent + (digits d.significand).length - 1 ≤ window.last
  · by_cases he : 0 ≤ d.exponent
    · exact Or.inl ⟨he, hw.2, by simp [ofDecimal, hw, he]⟩
    · exact Or.inr (Or.inl ⟨by omega, by simp [ofDecimal, hw, he, places]⟩)
  · exact Or.inr (Or.inr (by simp only [ofDecimal, hw, if_false]))

theorem negative_ofDecimal (window : Window) (negative : Bool) (d : Decimal) :
    (ofDecimal window negative d).negative = negative := by
  rcases ofDecimal_cases window negative d with ⟨-, -, h⟩ | ⟨-, h⟩ | h <;> rw [h]

theorem word?_ofDecimal (window : Window) (negative : Bool) (d : Decimal) :
    (ofDecimal window negative d).word? = none := by
  rcases ofDecimal_cases window negative d with ⟨-, -, h⟩ | ⟨he, h⟩ | h
  · rw [h]
    rfl
  · have hl := length_places (-d.exponent).toNat (digits d.significand)
    have hne : (places (-d.exponent).toNat (digits d.significand)).isEmpty = false := by
      rw [List.isEmpty_eq_false_iff]
      intro hz
      rw [hz, List.length_nil] at hl
      omega
    simp [h, word?, hne]
  · simp [h, word?]

theorem scaling_ofDecimal (negative : Bool) (hw : window.last ≤ 17)
    (hs : d.significand < Count.bound) :
    (ofDecimal window negative d).scaling = (d.significand, d.exponent) ∨
      (0 ≤ d.exponent ∧ d.significand * tens d.exponent.toNat < tens (window.last + 1).toNat ∧
        (ofDecimal window negative d).scaling
          = (10 * (d.significand * tens d.exponent.toNat), -1)) := by
  have hv := value_digits d.significand
  have hlen : 0 < (digits d.significand).length :=
    List.length_pos_iff.mpr (Decimal.digits_ne_nil _)
  rcases ofDecimal_cases window negative d with ⟨he, hl, h⟩ | ⟨he, h⟩ | h
  · right
    have hlt : d.significand * tens d.exponent.toNat < tens (window.last + 1).toNat := by
      calc d.significand * tens d.exponent.toNat
          < 10 ^ (digits d.significand).length * tens d.exponent.toNat :=
            Nat.mul_lt_mul_of_pos_right (Decimal.lt_pow_length_digits _) (Decimal.tens_pos _)
        _ = 10 ^ ((digits d.significand).length + d.exponent.toNat) := (Nat.pow_add _ _ _).symm
        _ ≤ tens (window.last + 1).toNat := Nat.pow_le_pow_right (by decide) (by omega)
    have hb : tens (window.last + 1).toNat ≤ tens 18 := Decimal.tens_mono (by omega)
    have hc : 10 * tens 18 < Count.bound := by decide
    have hz : value [Digit.zero] = 0 := rfl
    refine ⟨he, hlt, ?_⟩
    rw [h, scaling_eq (by simp only [List.length_singleton, hz]; omega)]
    simp only [List.length_singleton, hz, Nat.pow_one, Option.getD_none, Prod.mk.injEq]
    omega
  · left
    have hp := length_places (-d.exponent).toNat (digits d.significand)
    have hq := value_places (-d.exponent).toNat (digits d.significand)
    have hd : d.significand / tens (-d.exponent).toNat * 10 ^ (-d.exponent).toNat
        + d.significand % 10 ^ (-d.exponent).toNat = d.significand := Nat.div_add_mod' _ _
    rw [h, scaling_eq (by simp only [hp, hq, hv, hd, hs])]
    simp only [hp, hq, hv, hd, Option.getD_none, Prod.mk.injEq, true_and]
    omega
  · left
    have ht := value_append ((digits d.significand).take 1) ((digits d.significand).drop 1)
    rw [List.take_append_drop, hv, List.length_drop] at ht
    rw [h, scaling_eq (by simp only [List.length_drop, ← ht, hs])]
    simp only [List.length_drop, ← ht, Option.getD_some, Prod.mk.injEq, true_and]
    omega

end Json.Number

end Federation
