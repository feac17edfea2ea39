import Federation.Float.Logarithm
import Federation.Proofs.Float.Errors
import Mathlib.Tactic.Positivity

/-!
# The range of the logarithm

The logarithm of a number from the last digit of one to one is not above zero, and not below -64.
Just below one its first term is rounded to a number that is not above the argument less one, and
all that is added to this is a small part of that distance. Elsewhere a multiple of the logarithm of
two and the logarithm of the node are together well below zero, and what is added is smaller.
-/

set_option autoImplicit false

namespace Federation.Logarithm

open Binary
open FloatFormat (double)

theorem constants_exact :
    ((.ofRatio true 1 2 : Double).isFinite = true ∧
      (.ofRatio true 1 2 : Double).amount * 2 = -1 * double.one) ∧
    (lnTwoHigh.isFinite = true ∧ 69 * double.one ≤ lnTwoHigh.amount * 100 ∧
      lnTwoHigh.amount * 100 ≤ 70 * double.one) ∧
    (lnTwoLow.isFinite = true ∧ lnTwoLow.amount.natAbs * 2 ^ 43 ≤ 1 * double.one) ∧
    ((.ofRatio false 15 16 : Double).position = some ((start + 64 * cellRanks : Nat) : Int) ∧
      15 * double.one ≤ 16 * double.units (start + 64 * cellRanks) ∧
      double.power 0 < (.ofRatio false 4361 4096 : Double).rank) ∧
    (nearOne (atRank false (double.power 0) - .ofNat 1)).isFinite = true ∧
      (nearOne (atRank false (double.power 0) - .ofNat 1)).amount = 0 := by
  decide +kernel

theorem coefficient_rank (bits limit : Nat) (ht : limit < double.top)
    (h : bits % signBit double ≤ limit) :
    (coefficient bits).isNaN = false ∧ (coefficient bits).rank ≤ limit := by
  unfold coefficient ofBits
  simp only
  rw [if_pos (by omega)]
  exact ⟨rfl, (Nat.min_le_left _ _).trans h⟩

theorem coefficient_bounded (bits : Nat) (h : bits % signBit double ≤ 1022 * double.binade) :
    Bounded (1 / 2) (coefficient bits) := by
  have htop : 1022 * double.binade < double.top := by decide
  have hhalf : (double.units (1022 * double.binade) / double.one : ℚ) = 1 / 2 := by
    have hdouble := double.units_binade_mul 1021 1
    have hone : double.units ((1021 + 1 + 1) * double.binade) = double.one := by
      rw [show (1021 + 1 + 1) * double.binade = double.power 0 by decide, FloatFormat.units_power,
        Nat.pow_zero, Nat.one_mul]
    rw [hone, Nat.pow_one] at hdouble
    rw [div_eq_div_iff one_pos_rat.ne' two_ne_zero, one_mul]
    exact_mod_cast hdouble
  obtain ⟨hnan, hrank⟩ := coefficient_rank bits _ htop h
  exact hhalf ▸ bounded_of_rank hnan hrank htop

theorem minusHalf_value : (.ofRatio true 1 2 : Double).isFinite = true ∧
    (.ofRatio true 1 2 : Double).value = -1 / 2 := by
  obtain ⟨⟨hfin, hamount⟩, -⟩ := constants_exact
  refine ⟨hfin, ?_⟩
  rw [value, div_eq_div_iff one_pos_rat.ne' two_ne_zero]
  exact_mod_cast hamount

section NearOne

variable {r : Double} {ρ : ℚ}

structure Below (ρ : ℚ) (r : Double) : Prop where
  finite : r.isFinite = true
  value_eq : r.value = -ρ
  low : 1 / 2 ^ 54 ≤ ρ
  high : ρ ≤ 1 / 8

theorem shift_value : ((ofNat (1 <<< 27) : Double).isFinite = true ∧
      (ofNat (1 <<< 27) : Double).value = 2 ^ 27) ∧
    (ofNat (1 <<< 27) : Double).neg.isFinite = true ∧
      (ofNat (1 <<< 27) : Double).neg.value = -2 ^ 27 := by
  have hshift := two_pow_value (show 27 ≤ 1023 by decide)
  rw [← Nat.one_shiftLeft] at hshift
  obtain ⟨hfin, hvalue⟩ : (ofNat (1 <<< 27) : Double).isFinite = true ∧
      (ofNat (1 <<< 27) : Double).value = 2 ^ 27 := hshift
  exact ⟨⟨hfin, hvalue⟩, (isFinite_neg _).trans hfin, (value_neg _).trans (by rw [hvalue])⟩

theorem front_near (h : Below ρ r) :
    (front r).isFinite = true ∧ |(front r).value + ρ| ≤ ρ / 2 ^ 24 := by
  obtain ⟨hr, hv, hlow, hhigh⟩ := h
  obtain ⟨⟨hshift, hs⟩, hback, hb⟩ := shift_value
  obtain ⟨hlifted, hl⟩ := (rounds_mulAdd hr hshift hr).error (B := 2 ^ 28 * ρ)
    (by rw [hv, hs, abs_le]; constructor <;> linarith) ⟨by linarith, by linarith⟩
  rw [hv, hs, abs_le] at hl
  have hrounds : Rounds _ (front r) := rounds_mulAdd hback hr hlifted
  rw [hv, hb] at hrounds
  obtain ⟨hfront, hf⟩ := hrounds.error (B := 2 * ρ)
    (by rw [abs_le]; constructor <;> linarith) ⟨by linarith, by linarith⟩
  rw [abs_le] at hf
  refine ⟨hfront, ?_⟩
  rw [abs_le]
  constructor <;> linarith

theorem quadratic_bounded {p q r x square : Double} (hp : Bounded (1 / 2) p)
    (hq : Bounded (1 / 2) q) (hr : Bounded (1 / 2) r) (hx : Bounded (1 / 8) x)
    (hs : Bounded (1 / 32) square) : Bounded (5 / 8) (quadratic p q r x square) :=
  hs.mulAdd hr (hq.mulAdd hx hp (d := 9 / 16 + 1 / 64) ⟨by norm_num, by norm_num⟩ (by norm_num))
    ⟨by norm_num, by norm_num⟩ (by norm_num)

theorem longTail_bounded {square cube : Double} (hr : Bounded (1 / 8) r)
    (hs : Bounded (1 / 32) square) (hc : Bounded (1 / 128) cube) :
    Bounded 1 (longTail r square cube) := by
  have hlast : Bounded (3 / 4) (cube.mulAdd (coefficient 0xbfb5521375d145cd)
      (quadratic (coefficient 0x3fbc7184282ad6ca) (coefficient 0xbfb999eb43b068ff)
        (coefficient 0x3fb78182f7afd085) r square)) :=
    hc.mulAdd (coefficient_bounded _ (by decide)) (quadratic_bounded
      (coefficient_bounded _ (by decide)) (coefficient_bounded _ (by decide))
      (coefficient_bounded _ (by decide)) hr hs) ⟨by norm_num, by norm_num⟩ (by norm_num)
  have hmiddle := hlast.mulAdd hc (quadratic_bounded (p := coefficient 0xbfc55555556745a7)
    (q := coefficient 0x3fc24924a344de30) (r := coefficient 0xbfbfffffa4423d65)
    (coefficient_bounded _ (by decide)) (coefficient_bounded _ (by decide))
    (coefficient_bounded _ (by decide)) hr hs) (d := 3 / 4) ⟨by norm_num, by norm_num⟩
    (by norm_num)
  exact hmiddle.mulAdd hc (quadratic_bounded (coefficient_bounded _ (by decide))
    (coefficient_bounded _ (by decide)) (coefficient_bounded _ (by decide)) hr hs)
    ⟨by norm_num, by norm_num⟩ (by norm_num)

/-- Of the first two terms the high part is not above the number, and the low part is its rounding
error. -/
theorem parts_bounded {square : Double} (h : Below ρ r) (hs : square.isFinite = true)
    (h0 : 0 ≤ square.value) (h1 : square.value ≤ ρ / 4) :
    Bounded (2 * ρ) (square.mulAdd (.ofRatio true 1 2) r) ∧
      (square.mulAdd (.ofRatio true 1 2) r).value ≤ -ρ ∧
      Bounded (ρ / 2 ^ 50) (square.mulAdd (.ofRatio true 1 2)
        (r - square.mulAdd (.ofRatio true 1 2) r)) := by
  obtain ⟨hr, hv, hlow, hhigh⟩ := h
  obtain ⟨hhalf, hm⟩ := minusHalf_value
  have hrounds := rounds_mulAdd hs hhalf hr
  have hle := hrounds.value_le (y := r) (by rw [hm]; linarith)
  rw [hm, hv] at hrounds
  obtain ⟨hfin, he⟩ := hrounds.error (B := 3 / 2 * ρ)
    (by rw [abs_le]; constructor <;> linarith) ⟨by linarith, by linarith⟩
  rw [abs_le] at he
  have hdiff := rounds_sub hr hfin
  obtain ⟨hfin', he'⟩ := hdiff.error (B := ρ)
    (by rw [hv, abs_le]; constructor <;> linarith) ⟨by linarith, by linarith⟩
  rw [hv, abs_le] at he'
  refine ⟨⟨hfin, by rw [abs_le]; constructor <;> linarith⟩, by linarith, ?_⟩
  refine (rounds_mulAdd hs hhalf hfin').bounded (B := ρ / 2 ^ 51)
    (by rw [hm, abs_le]; constructor <;> linarith) ⟨by linarith, by linarith⟩ (by linarith)

theorem frontSquare_between (h : Below ρ r) : (front r * front r).isFinite = true ∧
    0 ≤ (front r * front r).value ∧ (front r * front r).value ≤ ρ / 4 := by
  obtain ⟨hfront, hf⟩ := front_near h
  obtain ⟨-, -, hlow, hhigh⟩ := h
  rw [abs_le] at hf
  have hsquare := mul_self_le_mul_self (abs_nonneg _) (show |(front r).value| ≤ 5 / 4 * ρ by
    rw [abs_le]; constructor <;> linarith)
  rw [abs_mul_abs_self] at hsquare
  have hρ : ρ * ρ ≤ 1 / 8 * ρ := mul_le_mul_of_nonneg_right hhigh (by linarith)
  have hrounds := rounds_mul hfront hfront
  obtain ⟨hfin, he⟩ := hrounds.error (B := 25 / 128 * ρ)
    (by rw [abs_of_nonneg (mul_self_nonneg _)]; linarith) ⟨by linarith, by linarith⟩
  rw [abs_le] at he
  exact ⟨hfin, zero_value ▸ hrounds.le_value (by rw [zero_value]; exact mul_self_nonneg _),
    by linarith⟩

theorem Below.bounded (h : Below ρ r) : 0 < ρ ∧ Bounded ρ r ∧ Bounded (1 / 8) r := by
  have hpos : 0 < ρ := lt_of_lt_of_le (by positivity) h.low
  have habs : |r.value| = ρ := by rw [h.value_eq, abs_neg, abs_of_pos hpos]
  exact ⟨hpos, ⟨h.finite, habs.le⟩, ⟨h.finite, habs.le.trans h.high⟩⟩

theorem rest_bounded {low : Double} (h : Below ρ r) (hlow : Bounded (ρ / 2 ^ 50) low) :
    Bounded (ρ / 2 ^ 20) ((.ofRatio true 1 2 * (r - front r)).mulAdd (r + front r) low) := by
  obtain ⟨hfront, hf⟩ := front_near h
  obtain ⟨hpos, hr, -⟩ := h.bounded
  obtain ⟨-, hv, hl, hu⟩ := h
  obtain ⟨hhalf, hm⟩ := minusHalf_value
  have hf' := abs_le.mp hf
  have hgap : Bounded (ρ / 2 ^ 23) (r - front r) := by
    refine (rounds_sub hr.finite hfront).bounded (B := ρ / 2 ^ 24) ?_ ⟨by linarith, by linarith⟩
      (by linarith)
    rw [hv, abs_le]
    constructor <;> linarith
  have hhalf : Bounded (1 / 2) (.ofRatio true 1 2 : Double) := ⟨hhalf, by rw [hm]; norm_num⟩
  have hback := hhalf.mul hgap (c := ρ / 2 ^ 23) ⟨by linarith, by linarith⟩ (by linarith)
  have hsum := hr.add (b := 2 * ρ) ⟨hfront, by rw [abs_le]; constructor <;> linarith⟩ (c := 4 * ρ)
    ⟨by linarith, by linarith⟩ (by linarith)
  have hsquare : ρ * ρ ≤ 1 / 8 * ρ := mul_le_mul_of_nonneg_right hu hpos.le
  exact hback.mulAdd hsum hlow ⟨by linarith [mul_self_nonneg ρ], by linarith⟩ (by linarith)

theorem remainder_bounded {low : Double} (h : Below ρ r) (hlow : Bounded (ρ / 2 ^ 20) low) :
    Bounded (ρ / 8) ((longTail r (r * r) (r * (r * r))).mulAdd (r * (r * r)) low) := by
  obtain ⟨hpos, hr, hr'⟩ := h.bounded
  obtain ⟨-, -, hl, hu⟩ := h
  have hsquare : Bounded (1 / 32) (r * r) := hr'.mul hr' ⟨by norm_num, by norm_num⟩ (by norm_num)
  have hcube : Bounded (ρ / 16) (r * (r * r)) :=
    hr.mul hsquare ⟨by linarith, by linarith⟩ (by linarith)
  have htail := longTail_bounded hr' hsquare ⟨hcube.finite, hcube.le.trans (by linarith)⟩
  exact htail.mulAdd hcube hlow ⟨by linarith, by linarith⟩ (by linarith)

theorem nearOne_between (h : Below ρ r) :
    (nearOne r).isFinite = true ∧ -1 ≤ (nearOne r).value ∧ (nearOne r).value ≤ 0 := by
  obtain ⟨hsquare, hs0, hs1⟩ := frontSquare_between h
  obtain ⟨hhigh, hle, hlow⟩ := parts_bounded h hsquare hs0 hs1
  have hremainder := remainder_bounded h (rest_bounded h hlow)
  obtain ⟨hpos, -⟩ := h.bounded
  obtain ⟨-, -, hl, hu⟩ := h
  have hrounds : Rounds _ (nearOne r) := rounds_add hhigh.finite hremainder.finite
  have hbounded : Bounded (4 * ρ) (nearOne r) :=
    hhigh.add hremainder ⟨by linarith, by linarith⟩ (by linarith)
  have hleast := (abs_le.mp hbounded.le).1
  have hmost := (abs_le.mp hremainder.le).2
  exact ⟨hbounded.finite, by linarith,
    zero_value ▸ hrounds.value_le (by rw [zero_value]; linarith)⟩

end NearOne

section NearNode

variable {power : Int} {z : Double} {node : Node}

/-- What the node of a number `2 ^ power * z` is like. The multiple of the logarithm of two and the
logarithm of the node are together well below zero. -/
structure Fits (power : Int) (z : Double) (node : Node) : Prop where
  finite : z.isFinite = true ∧ node.reciprocal.isFinite = true
  near : |z.value * node.reciprocal.value - 1| ≤ 1 / 100
  log : Bounded (1 / 2) node.log
  steep : power * (69 / 100) + node.log.value ≤ -1 / 20

theorem lnTwo_value : (lnTwoHigh.isFinite = true ∧ 69 / 100 ≤ lnTwoHigh.value ∧
    lnTwoHigh.value ≤ 70 / 100) ∧ Bounded (1 / 2 ^ 43) lnTwoLow := by
  obtain ⟨-, ⟨hfin, hleast, hmost⟩, ⟨hfin', hlow⟩, -⟩ := constants_exact
  have hbounded := bounded_of_amount (d := 2 ^ 43) (Nat.two_pow_pos _) hfin' hlow
  rw [Nat.cast_one, Nat.cast_pow, Nat.cast_ofNat] at hbounded
  refine ⟨⟨hfin, ?_, ?_⟩, hbounded⟩
  · rw [value, div_le_div_iff₀ (by norm_num) one_pos_rat]
    exact_mod_cast hleast
  · rw [value, div_le_div_iff₀ one_pos_rat (by norm_num)]
    exact_mod_cast hmost

theorem tail_bounded {r square : Double} (hr : Bounded (1 / 99) r)
    (hs : Bounded (1 / 9000) square) : Bounded 1 (tail r square) := by
  have hfirst := hr.mulAdd (coefficient_bounded 0xbfc55575e506c89f (by decide))
    (coefficient_bounded 0x3fc999b324f10111 (by decide)) (d := 3 / 4)
    ⟨by norm_num, by norm_num⟩ (by norm_num)
  have hlast := hr.mulAdd (coefficient_bounded 0xbfcfffffffeb4590 (by decide))
    (coefficient_bounded 0x3fd555555551305b (by decide)) (d := 3 / 4)
    ⟨by norm_num, by norm_num⟩ (by norm_num)
  exact hfirst.mulAdd hs hlast ⟨by norm_num, by norm_num⟩ (by norm_num)

theorem power_near (h : -64 ≤ power ∧ power ≤ 0) : (ofInt power : Double).isFinite = true ∧
    |(ofInt power : Double).value - power| ≤ 1 / 2 ^ 47 ∧ (ofInt power : Double).value ≤ 0 := by
  have hlow : (-64 : ℚ) ≤ power := by exact_mod_cast h.1
  have hhigh : (power : ℚ) ≤ 0 := by exact_mod_cast h.2
  have hrounds := rounds_ofInt power
  obtain ⟨hfin, he⟩ := hrounds.error (B := 64) (by rw [abs_le]; constructor <;> linarith)
    ⟨by norm_num, by norm_num⟩
  exact ⟨hfin, he.trans (by norm_num), zero_value ▸ hrounds.value_le (by rwa [zero_value])⟩

theorem Fits.reduced (h : Fits power z node) :
    Bounded (1 / 99) (z.mulAdd node.reciprocal (.ofInt (-1))) := by
  have hone : (-Scalar.one : Double).value = -1 := by rw [value_neg, one_value.2]
  have hminus := rounds_ofInt (-1)
  rw [Int.cast_neg, Int.cast_one, ← hone] at hminus
  have hvalue := le_antisymm (hminus.value_le le_rfl) (hminus.le_value le_rfl)
  have hfin := hminus.isFinite (B := 1) (by rw [hone]; norm_num) (by norm_num)
  have hrounds := rounds_mulAdd h.finite.1 h.finite.2 hfin
  rw [hvalue, hone, ← sub_eq_add_neg] at hrounds
  exact hrounds.bounded h.near ⟨by norm_num, by norm_num⟩ (by norm_num)

theorem Fits.base (hp : -64 ≤ power ∧ power ≤ 0) (h : Fits power z node) :
    ((ofInt power : Double).mulAdd lnTwoHigh node.log).isFinite = true ∧
      -46 ≤ ((ofInt power : Double).mulAdd lnTwoHigh node.log).value ∧
      ((ofInt power : Double).mulAdd lnTwoHigh node.log).value ≤ -1 / 21 := by
  obtain ⟨-, -, hlog, hsteep⟩ := h
  obtain ⟨⟨hL, hL0, hL1⟩, -⟩ := lnTwo_value
  obtain ⟨hpf, hpn, hp0⟩ := power_near hp
  have hlow : (-64 : ℚ) ≤ power := by exact_mod_cast hp.1
  have hlog' := abs_le.mp hlog.le
  rw [abs_le] at hpn
  have hmul0 := mul_le_mul_of_nonpos_left hL0 hp0
  have hmul1 := mul_le_mul_of_nonpos_left hL1 hp0
  obtain ⟨hfin, he⟩ := (rounds_mulAdd hpf hL hlog.finite).error (B := 46)
    (by rw [abs_le]; constructor <;> linarith) ⟨by norm_num, by norm_num⟩
  rw [abs_le] at he
  exact ⟨hfin, by linarith, by linarith⟩

theorem sum_bounded {base r : Double} (hb : base.isFinite = true) (hlow : -46 ≤ base.value)
    (hhigh : base.value ≤ -1 / 21) (hr : Bounded (1 / 99) r) :
    (base + r).isFinite = true ∧ -47 ≤ (base + r).value ∧ (base + r).value ≤ -1 / 28 ∧
      Bounded (1 / 2 ^ 45) (base - (base + r) + r) := by
  have hr' := abs_le.mp hr.le
  obtain ⟨hfin, he⟩ := (rounds_add hb hr.finite).error (B := 47)
    (by rw [abs_le]; constructor <;> linarith) ⟨by norm_num, by norm_num⟩
  rw [abs_le] at he
  obtain ⟨hfin', he'⟩ := (rounds_sub hb hfin).error (B := 1 / 98)
    (by rw [abs_le]; constructor <;> linarith) ⟨by norm_num, by norm_num⟩
  rw [abs_le] at he'
  refine ⟨hfin, by linarith, by linarith, ?_⟩
  exact (rounds_add hfin' hr.finite).bounded (B := 1 / 2 ^ 46)
    (by rw [abs_le]; constructor <;> linarith) ⟨by norm_num, by norm_num⟩ (by norm_num)

theorem nearNode_between (hp : -64 ≤ power ∧ power ≤ 0) (h : Fits power z node) :
    (nearNode power z node).isFinite = true ∧ -64 ≤ (nearNode power z node).value ∧
      (nearNode power z node).value ≤ 0 := by
  have hr := h.reduced
  obtain ⟨hb, hb0, hb1⟩ := h.base hp
  obtain ⟨hhf, hh0, hh1, hrest⟩ := sum_bounded hb hb0 hb1 hr
  obtain ⟨-, hlowL⟩ := lnTwo_value
  have hpower : Bounded 65 (ofInt power : Double) := by
    obtain ⟨hpf, hpn, hp0⟩ := power_near hp
    have hleast : (-64 : ℚ) ≤ power := by exact_mod_cast hp.1
    rw [abs_le] at hpn
    exact ⟨hpf, abs_le.mpr ⟨by linarith, by linarith⟩⟩
  have hlow := hpower.mulAdd hlowL hrest (d := 1 / 2 ^ 36) ⟨by norm_num, by norm_num⟩ (by norm_num)
  have hsquare := hr.mul hr (c := 1 / 9000) ⟨by norm_num, by norm_num⟩ (by norm_num)
  have hhalf : Bounded 1 (coefficient 0xbfe0000000000001) := by
    have hrank := coefficient_rank 0xbfe0000000000001 (double.power 0)
      (FloatFormat.power_lt_top (Nat.zero_le _)) (by decide)
    simpa using (within_iff.mpr hrank).bounded (Nat.zero_le _)
  have hlow' := hsquare.mulAdd hhalf hlow (d := 1 / 8000) ⟨by norm_num, by norm_num⟩ (by norm_num)
  have hcube := hr.mul hsquare (c := 1 / 800000) ⟨by norm_num, by norm_num⟩ (by norm_num)
  have htail := hcube.mulAdd (tail_bounded hr hsquare) hlow' (d := 1 / 7000)
    ⟨by norm_num, by norm_num⟩ (by norm_num)
  have ht := abs_le.mp htail.le
  have hrounds : Rounds _ (nearNode power z node) := rounds_add htail.finite hhf
  obtain ⟨hfin, he⟩ := hrounds.error (B := 48)
    (by rw [abs_le]; constructor <;> linarith) ⟨by norm_num, by norm_num⟩
  rw [abs_le] at he
  exact ⟨hfin, by linarith, zero_value ▸ hrounds.value_le (by rw [zero_value]; linarith)⟩

/-- The numbers of a cell are within one part in a hundred of its node, and the logarithms of the
nodes before 15/16 are not close to zero. -/
theorem cells_fit : ∀ e ∈ nodes.zipIdx,
    (e.1.reciprocal.isFinite = true ∧ e.1.log.isFinite = true) ∧
    (99 * (double.one * double.one : Int)
        ≤ 100 * (double.units (start + e.2 * cellRanks) * e.1.reciprocal.amount) ∧
      100 * (double.units (start + (e.2 + 1) * cellRanks) * e.1.reciprocal.amount)
        ≤ 101 * (double.one * double.one : Int)) ∧
    e.1.log.amount.natAbs * 2 ≤ 1 * double.one ∧ e.1.log.amount * 3 ≤ double.one ∧
    (e.2 < 64 → e.1.log.amount * 20 ≤ -double.one) := by
  decide +kernel

theorem near_of_units {low high u : Nat} {x y : Double} (hx : x.amount = u) (hlow : low ≤ u)
    (hhigh : u ≤ high) (h0 : 99 * (double.one * double.one : Int) ≤ 100 * (low * y.amount))
    (h1 : 100 * (high * y.amount) ≤ 101 * (double.one * double.one : Int)) :
    |x.value * y.value - 1| ≤ 1 / 100 := by
  have hone := one_pos_rat
  have hsquare := mul_pos hone hone
  have hpos : 0 ≤ y.amount := by
    by_contra hneg
    have hprod := mul_nonpos_of_nonneg_of_nonpos (Int.natCast_nonneg low) (Int.not_le.mp hneg).le
    have hscale : (0 : Int) < double.one * double.one := by exact_mod_cast hsquare
    omega
  have hbelow := Int.mul_le_mul_of_nonneg_right (Int.ofNat_le.mpr hlow) hpos
  have habove := Int.mul_le_mul_of_nonneg_right (Int.ofNat_le.mpr hhigh) hpos
  have h0' : 99 * (double.one * double.one : Int) ≤ 100 * (u * y.amount) := by omega
  have h1' : 100 * (u * y.amount) ≤ 101 * (double.one * double.one : Int) := by omega
  have h0' : (99 * (double.one * double.one) : ℚ) ≤ 100 * (u * y.amount) := by exact_mod_cast h0'
  have h1' : (100 * (u * y.amount) : ℚ) ≤ 101 * (double.one * double.one) := by exact_mod_cast h1'
  rw [value, value, hx, div_mul_div_comm, Int.cast_natCast, abs_le]
  constructor
  · rw [le_sub_iff_add_le, le_div_iff₀ hsquare]
    linarith
  · rw [sub_le_iff_le_add, div_le_iff₀ hsquare]
    linarith

theorem fits_of_cell {place : Nat} (hp : power ≤ 0) (hplace : place < double.binade)
    (hpower : power = 0 → place < 64 * cellRanks)
    (hn : nodes[place / cellRanks]? = some node) :
    Fits power (.atRank false (start + place)) node := by
  obtain ⟨⟨hreciprocal, hfin⟩, ⟨hnear0, hnear1⟩, hlog, hthird, hfirst⟩ :=
    cells_fit (node, place / cellRanks) (List.mem_zipIdx_iff_getElem?.mpr hn)
  have hcell : 0 < cellRanks := by decide
  have hone := one_pos_rat
  have hmin : start + double.binade ≤ double.top := by decide
  have hz : (atRank false (start + place) : Double).amount = double.units (start + place) := by
    rw [amount_atRank _ (by omega)]
    rfl
  refine ⟨⟨isFinite_atRank (by omega), hreciprocal⟩, ?_, ?_, ?_⟩
  · have hbelow := Nat.div_mul_le_self place cellRanks
    have habove : place ≤ (place / cellRanks + 1) * cellRanks := by
      rw [Nat.succ_mul]
      exact (Nat.lt_div_mul_add hcell).le
    exact near_of_units hz
      (double.units_strictMono.monotone (Nat.add_le_add_left hbelow _))
      (double.units_strictMono.monotone (Nat.add_le_add_left habove _)) hnear0 hnear1
  · have hb := bounded_of_amount Nat.two_pos hfin hlog
    rwa [Nat.cast_one, Nat.cast_ofNat] at hb
  · rcases Int.lt_or_eq_of_le hp with hneg | rfl
    · have hpower : (power : ℚ) ≤ -1 := by exact_mod_cast Int.le_sub_one_of_lt hneg
      have hvalue : node.log.value ≤ 1 / 3 := by
        rw [value, div_le_div_iff₀ hone (by norm_num), one_mul]
        exact_mod_cast hthird
      linarith
    · have hlast := hfirst ((Nat.div_lt_iff_lt_mul hcell).mpr (hpower rfl))
      have hvalue : node.log.value ≤ -1 / 20 := by
        rw [value, div_le_div_iff₀ hone (by norm_num), neg_one_mul]
        exact_mod_cast hlast
      rw [Int.cast_zero]
      linarith

end NearNode

section Range

variable {rank : Nat}

theorem isNearOne_iff (h : rank ≤ double.power 0) :
    isNearOne (atRank false rank) = true ↔ start + 64 * cellRanks ≤ rank := by
  obtain ⟨-, -, -, ⟨hfrom, -, hpast⟩, -⟩ := constants_exact
  have hfrom : (ofRatio false 15 16 : Double).HasRank (start + 64 * cellRanks) := hfrom
  have hend : (ofRatio false 4361 4096 : Double).HasRank (ofRatio false 4361 4096 : Double).rank :=
    hasRank_iff.mpr ⟨_, _, rfl, rfl, by simp⟩
  have hx : (atRank false rank : Double).HasRank rank :=
    hasRank_atRank (h.trans (le_of_lt (FloatFormat.power_lt_top (Nat.zero_le _))))
  rw [isNearOne, hfrom.le_eq hx, hx.lt_eq hend, decide_eq_true (lt_of_le_of_lt h hpast),
    Bool.and_true, decide_eq_true_eq]

theorem below_of_near (hnear : start + 64 * cellRanks ≤ rank) (hlt : rank < double.power 0) :
    ∃ ρ, Below ρ (atRank false rank - .ofNat 1) := by
  have hone := one_pos_rat
  have htop : double.power 0 < double.top := FloatFormat.power_lt_top (Nat.zero_le _)
  obtain ⟨-, -, -, ⟨-, hfirst, -⟩, -⟩ := constants_exact
  have hvalue := (hasRank_atRank (f := double) (hlt.trans htop).le).value_eq
  have hlow : 15 / 16 ≤ (double.units rank / double.one : ℚ) := by
    have hmono := double.units_strictMono.monotone hnear
    have hunits : (15 * double.one : ℚ) ≤ 16 * double.units rank := by
      exact_mod_cast show 15 * double.one ≤ 16 * double.units rank by omega
    rw [le_div_iff₀ hone]
    linarith
  have hhigh := units_lt_one hlt
  obtain ⟨hunit, hone'⟩ : (ofNat 1 : Double).isFinite = true ∧ (ofNat 1 : Double).value = 1 :=
    one_value
  have hrounds := rounds_sub (isFinite_atRank (n := false) (hlt.trans htop)) hunit
  rw [hvalue, hone'] at hrounds
  obtain ⟨hfin, he⟩ := hrounds.error (B := 1 / 16) (by rw [abs_le]; constructor <;> linarith)
    ⟨by norm_num, by norm_num⟩
  rw [abs_le] at he
  exact ⟨_, hfin, (neg_neg _).symm, by linarith, by linarith⟩

theorem node_of_place {place : Nat} (h : place < double.binade) :
    ∃ node, nodes[place / cellRanks]? = some node := by
  have hb : double.binade = 128 * cellRanks := by decide
  have hcell : place / cellRanks < 128 := by
    rw [Nat.div_lt_iff_lt_mul (by decide)]
    omega
  have hn : place / cellRanks < nodes.length := hcell
  exact ⟨_, List.getElem?_eq_getElem hn⟩

theorem split_of_rank (hlow : double.power 0 ≤ rank + 53 * double.binade)
    (hlt : rank < start + 64 * cellRanks) :
    (-64 ≤ (Split.ofRank rank).power ∧ (Split.ofRank rank).power ≤ 0) ∧
      (Split.ofRank rank).place < double.binade ∧
      ((Split.ofRank rank).power = 0 → (Split.ofRank rank).place < 64 * cellRanks) := by
  have hb : double.binade = 4503599627370496 := by decide
  have hp : double.power 0 = 1023 * 4503599627370496 := by decide
  have hs : start = 0x3fe6000000000000 := rfl
  have hc : cellRanks = 35184372088832 := by decide
  have hnormal : ¬rank < double.binade := by omega
  simp only [Split.ofRank, if_neg hnormal]
  rw [hb, hs, hc]
  omega

/-- The logarithm of a number that is at most one and at least its last digit is not above zero and
not far below it. -/
theorem ofRank_between (hlow : double.power 0 ≤ rank + 53 * double.binade)
    (hhigh : rank ≤ double.power 0) :
    (ofRank rank).isFinite = true ∧ -64 ≤ (ofRank rank).value ∧ (ofRank rank).value ≤ 0 := by
  unfold ofRank
  simp only
  by_cases hnear : start + 64 * cellRanks ≤ rank
  · rw [if_pos ((isNearOne_iff hhigh).mpr hnear)]
    rcases Nat.lt_or_eq_of_le hhigh with hlt | rfl
    · obtain ⟨ρ, h⟩ := below_of_near hnear hlt
      obtain ⟨hfin, hl, hu⟩ := nearOne_between h
      exact ⟨hfin, by linarith, hu⟩
    · obtain ⟨-, -, -, -, hfin, hamount⟩ := constants_exact
      rw [value, hamount, Int.cast_zero, zero_div]
      exact ⟨hfin, by norm_num, le_rfl⟩
  · rw [if_neg fun h => hnear ((isNearOne_iff hhigh).mp h)]
    obtain ⟨hpower, hplace, hfirst⟩ := split_of_rank hlow (Nat.not_le.mp hnear)
    obtain ⟨node, hnode⟩ := node_of_place hplace
    rw [hnode]
    exact nearNode_between hpower (fits_of_cell hpower.2 hplace hfirst hnode)

end Range

end Federation.Logarithm
