import Federation.Proofs.Float.Zeros

/-!
# Numbers at one place

Numbers at one place are equal in every comparison. All operations that lead from values to their
scores respect this: what they give for numbers at one place is at one place again.
-/

set_option autoImplicit false

namespace Federation.Binary

variable {f : FloatFormat} {x x' y y' : Binary f} {s : Nat}

/-- Where a number stands on the line. -/
def place (x : Binary f) : Int := x.position.getD 0

theorem position_eq_place (hx : x.isNaN = false) : x.position = some x.place := by
  cases x with
  | nan => cases hx
  | number n a => rfl

theorem lt_eq_place (hx : x.isNaN = false) (hy : y.isNaN = false) :
    x.lt y = decide (x.place < y.place) := by
  rw [lt, compares, position_eq_place hx, position_eq_place hy]

theorem lt_eq_places {xs : List (Binary f)} (h : ∀ x ∈ xs, x.isNaN = false) :
    ∀ x ∈ xs, ∀ y ∈ xs, x.lt y = decide (x.place < y.place) :=
  fun x hx y hy => lt_eq_place (h x hx) (h y hy)

theorem map_position_eq_map_place {xs : List (Binary f)} (h : ∀ x ∈ xs, x.isNaN = false) :
    xs.map position = (xs.map place).map some := by
  rw [List.map_map]
  exact List.map_congr_left fun x hx => position_eq_place (h x hx)

theorem eq_of_position (hx : x.isNaN = false) (h : x.position = y.position) : x.eq y = true := by
  rw [eq, compares, ← h, position_eq_place hx]
  exact decide_eq_true rfl

theorem compares_congr (test : Int → Int → Bool) (hx : x.position = x'.position)
    (hy : y.position = y'.position) : compares test x y = compares test x' y' := by
  rw [compares, hx, hy, compares]

theorem position_neg (x : Binary f) : (-x).position = x.position.map (- ·) := by
  cases x with
  | nan => rfl
  | number negative rank =>
    show some _ = some _
    cases negative <;> simp

theorem position_abs (x : Binary f) :
    x.abs.position = x.position.map fun p => (p.natAbs : Int) := by
  cases x with
  | nan => rfl
  | number negative rank =>
    show some _ = some _
    cases negative <;> simp

theorem position_sub_congr (hx : x.position = x'.position) (hy : y.position = y'.position) :
    (x - y).position = (x' - y').position :=
  position_add_congr hx (show (-y).position = (-y').position by
    rw [position_neg, position_neg, hy])

theorem position_zero_div (hx : x.position = some 0) (hy : y.HasRank s) (hs : 0 < s) :
    (x / y).position = some 0 := by
  obtain ⟨n, a, rfl, ha⟩ := position_eq_zero_iff.mp hx
  rw [hy.eq_atRank hs, ← atRank_val, ha]
  rcases Nat.lt_or_eq_of_le hy.le_top with ht | rfl
  · rw [div_atRank f.top_pos ht hs, f.units_zero, Nat.zero_mul, f.nearest_zero (f.units_pos hs)]
    exact position_atRank_zero _
  · rw [div_of_top f.top_pos]
    exact position_atRank_zero _

theorem eq_of_position_pos (hx : x.HasRank s) (hs : 0 < s) (h : x.position = y.position) :
    x = y := by
  have hy : y.HasRank s := h.symm.trans hx
  rw [hx.eq_atRank hs, hy.eq_atRank hs]

theorem position_div_congr (hx : x.position = x'.position) (hy : y.HasRank s) (hs : 0 < s)
    (h : y.position = y'.position) : (x / y).position = (x' / y').position := by
  rw [← eq_of_position_pos hy hs h]
  rcases position_eq_iff.mp hx with rfl | ⟨hx, hx'⟩
  · rfl
  · rw [position_zero_div hx hy hs, position_zero_div hx' hy hs]

end Federation.Binary
