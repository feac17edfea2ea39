import Federation.Proofs.Float.Zeros
import Federation.Proofs.Scores

/-!
# Symmetry

A correlation is accumulated from two rows entry by entry, and no step prefers one of the rows, nor
does the test that leaves a row out. So two outputs have one correlation, from whichever side it is
taken, and a table that computes each pair once and stores it in two places is the table of all
pairs. It fails where the first pair fails in the order of the double loop.
-/

set_option autoImplicit false

namespace Federation

namespace Statistics

open Binary

namespace Moments

def swap (m : Moments) : Moments := ⟨m.covariance, m.secondVariance, m.firstVariance⟩

theorem swap_add (m : Moments) (dx dy : Double) : (m.add dx dy).swap = m.swap.add dy dx := by
  simp only [add, swap, Binary.mul_comm dx dy]

theorem swap_foldl (c d : Double) (es : List (Single × Single)) (m : Moments) :
    (es.foldl (fun m e => m.add (e.1.toDouble - c) (e.2.toDouble - d)) m).swap
      = (es.map Prod.swap).foldl (fun m e => m.add (e.1.toDouble - d) (e.2.toDouble - c))
          m.swap := by
  induction es generalizing m with
  | nil => rfl
  | cons e es ih =>
    rw [List.foldl_cons, ih, List.map_cons, List.foldl_cons, swap_add]
    rfl

end Moments

theorem swap_moments (a b : List Single) : (moments a b).swap = moments b a := by
  rw [moments, moments, Moments.swap_foldl, List.zip_swap]
  rfl

theorem rowCorrelation?_comm {a b : List Single} (h : a.length = b.length) :
    rowCorrelation? a b = rowCorrelation? b a := by
  have hempty : a.isEmpty = b.isEmpty := by
    rw [Bool.eq_iff_iff, List.isEmpty_iff_length_eq_zero, List.isEmpty_iff_length_eq_zero, h]
  simp only [rowCorrelation?, hempty, ← swap_moments a b, Moments.swap,
    Binary.mul_comm (moments a b).secondVariance]

variable {a b : Matrix Single} {rho : Double}

theorem rowCorrelations_comm (h : a.size = b.size) : rowCorrelations a b = rowCorrelations b a := by
  unfold rowCorrelations
  rw [← List.zip_swap, List.filterMap_map]
  apply List.filterMap_congr
  intro e he
  obtain ⟨ha, hb⟩ := List.of_mem_zip he
  have hwidth : a.width = b.width := congrArg Prod.snd h
  exact rowCorrelation?_comm (by rw [Prod.fst_swap, Prod.snd_swap, a.length_row _ hb,
    b.length_row _ ha, hwidth])

theorem size_of_correlation (h : correlation a b = .ok rho) : a.size = b.size := by
  by_contra hne
  rw [correlation, if_neg hne] at h
  cases h

theorem correlation_comm (h : correlation a b = .ok rho) : correlation b a = .ok rho := by
  have hs := size_of_correlation h
  rw [correlation, if_pos hs, rowCorrelations_comm hs] at h
  rw [correlation, if_pos hs.symm]
  exact h

end Statistics

namespace Information

open Statistics Binary

variable {outputs : List (Matrix Single)} {t : Matrix Double} {fault : Fault}

theorem ofOutputs_ok_iff {a b : Matrix Single} {x : Double} :
    (ofOutputs a b).result = .ok x ↔
      ∃ rho, correlation a b = .ok rho ∧ mutualInformation rho = x := by
  rw [result_ofOutputs]
  cases correlation a b with
  | error first => simp [Except.map]
  | ok rho => simp [Except.map]

theorem ofOutputs_error_iff {a b : Matrix Single} :
    (ofOutputs a b).result = .error fault ↔ correlation a b = .error fault := by
  rw [result_ofOutputs]
  cases correlation a b with
  | error first => simp [Except.map]
  | ok rho => simp [Except.map]

theorem exists_ofOutputs_iff {a b : Matrix Single} :
    (∃ x, (ofOutputs a b).result = .ok x) ↔ ∃ rho, correlation a b = .ok rho := by
  simp only [ofOutputs_ok_iff]
  constructor
  · rintro ⟨_, rho, h, -⟩
    exact ⟨rho, h⟩
  · rintro ⟨rho, h⟩
    exact ⟨_, rho, h, rfl⟩

theorem table_error_iff :
    (table outputs).result = .error fault ↔ Pairwise.FirstFault correlation outputs fault := by
  have hupper : (table outputs).result = .error fault ↔
      Pairwise.upper (fun a b => (ofOutputs a b).result) outputs = .error fault := by
    rw [table, Pairwise.result_table, Pairwise.table]
    cases Pairwise.upper (fun a b => (ofOutputs a b).result) outputs with
    | error first => simp [Functor.map, Except.map]
    | ok rows => simp [Functor.map, Except.map]
  rw [hupper, Pairwise.upper_error_iff]
  simp only [Pairwise.FirstFault, ofOutputs_error_iff, exists_ofOutputs_iff]

theorem table_exists_iff :
    (∃ t, (table outputs).result = .ok t) ↔
      outputs.Pairwise fun a b => ∃ rho, correlation a b = .ok rho := by
  simp only [← exists_ofOutputs_iff, ← Pairwise.upper_ok_iff, table, Pairwise.result_table,
    Pairwise.table_ok_iff]
  constructor
  · rintro ⟨_, rows, h, -⟩
    exact ⟨rows, h⟩
  · rintro ⟨rows, h⟩
    exact ⟨_, rows, h, rfl⟩

theorem cells_of_table (h : (table outputs).result = .ok t) :
    ∃ cell : Nat → Nat → Double, (∀ i, cell i i = zero) ∧
      (∀ (i j : Nat) (a b : Matrix Single), i ≠ j → outputs[i]? = some a → outputs[j]? = some b →
        ∃ rho, correlation a b = .ok rho ∧ cell i j = mutualInformation rho) ∧
      t.rows = (List.range outputs.length).map fun i =>
        (List.range outputs.length).map (cell i) := by
  rw [table, Pairwise.result_table] at h
  obtain ⟨cell, hdiagonal, hcomm, hquantity, hrows⟩ := Pairwise.rows_of_table h
  refine ⟨cell, hdiagonal, fun i j a b hij ha hb => ?_, hrows⟩
  rcases Nat.lt_or_gt_of_ne hij with hlt | hgt
  · obtain ⟨rho, hrho, hcell⟩ := ofOutputs_ok_iff.mp (hquantity i j a b hlt ha hb)
    exact ⟨rho, hrho, hcell.symm⟩
  · obtain ⟨rho, hrho, hcell⟩ := ofOutputs_ok_iff.mp (hquantity j i b a hgt hb ha)
    exact ⟨rho, correlation_comm hrho, (hcomm i j).trans hcell.symm⟩

/-- The table of mutual information is the table of all pairs. It exists unless the correlation of
some pair fails, and then it fails as the first such pair does, in the order of rows. Its diagonal
is zero and every other entry is the information of the two outputs, in either order; no entry is
invalid, below zero or past the ceiling; and the scores are finite and not below zero. -/
theorem table_mirrored (outputs : List (Matrix Single)) :
    ((∃ t, (table outputs).result = .ok t) ↔
      outputs.Pairwise fun a b => ∃ rho, correlation a b = .ok rho) ∧
    (∀ fault, (table outputs).result = .error fault ↔
      Pairwise.FirstFault correlation outputs fault) ∧
    ∀ t, (table outputs).result = .ok t →
      t.size = (outputs.length, outputs.length) ∧
      (∀ i < outputs.length, t.entry? i i = some zero) ∧
      (∀ (i j : Nat) (a b : Matrix Single), i ≠ j → outputs[i]? = some a → outputs[j]? = some b →
        ∃ rho, correlation a b = .ok rho ∧ t.entry? i j = some (mutualInformation rho)) ∧
      (∀ row ∈ t.rows, ∀ x ∈ row,
        x.isNaN = false ∧ zero.le x = true ∧ x.le (-half * logFloor.ln) = true) ∧
      (clientScores t).length = outputs.length ∧
      ∀ s ∈ clientScores t, s.isFinite = true ∧ zero.le s = true := by
  refine ⟨table_exists_iff, fun fault => table_error_iff, fun t h => ?_⟩
  obtain ⟨cell, hdiagonal, hcell, hrows⟩ := cells_of_table h
  have hentry : ∀ i j, i < outputs.length → j < outputs.length →
      t.entry? i j = some (cell i j) := by
    intro i j hi hj
    simp [Matrix.entry?, hrows, hi, hj]
  have hheight : t.height = outputs.length := by simp [Matrix.height, hrows]
  refine ⟨?_, fun i hi => ?_, fun i j a b hij ha hb => ?_, fun row hrow x hx => ?_, ?_, ?_⟩
  · rw [table, Pairwise.result_table] at h
    rw [Matrix.size, hheight, Pairwise.width_table h]
  · rw [hentry i i hi hi, hdiagonal]
  · obtain ⟨rho, hrho, hvalue⟩ := hcell i j a b hij ha hb
    refine ⟨rho, hrho, ?_⟩
    rw [hentry i j (List.getElem?_eq_some_iff.mp ha).1 (List.getElem?_eq_some_iff.mp hb).1, hvalue]
  · rw [table, Pairwise.result_table] at h
    obtain ⟨r, hr, hle⟩ : ∃ r, x.HasRank r ∧ r ≤ ceiling.rank := by
      refine Pairwise.forall_mem_table (P := fun x => ∃ r, x.HasRank r ∧ r ≤ ceiling.rank) h
        ⟨0, hasRank_zero, Nat.zero_le _⟩ (fun a _ b _ x hx => ?_) row hrow x hx
      obtain ⟨rho, -, rfl⟩ := ofOutputs_ok_iff.mp hx
      exact mutualInformation_le rho
    have hceiling : x.le ceiling = true := by
      rw [ceiling_hasRank.rank_eq] at hle
      exact (hr.le_eq ceiling_hasRank).trans (decide_eq_true hle)
    exact ⟨hr.isNaN, (hasRank_zero.le_eq hr).trans (decide_eq_true (Nat.zero_le r)), hceiling⟩
  · rw [clientScores, List.length_map]
    exact hheight
  · intro s hs
    obtain ⟨r, hr, hle⟩ := clientScores_hasRank h s hs
    exact ⟨clientScores_finite h s hs,
      (hasRank_zero.le_eq hr).trans (decide_eq_true (Nat.zero_le r))⟩

def pairOf (w x y z : Single) : Matrix Single := .ofEntries 2 2 [w, x, y, z] rfl

def skewed : List (Matrix Single) :=
  [pairOf (.ofNat 0) (.ofNat 1) (.ofNat 2) .nan, pairOf (.ofNat 1) (.ofNat 0) (.ofNat 2) (.ofNat 3),
    pairOf (.ofNat 3) (.ofNat 7) (.ofNat 5) (.ofNat 5)]

theorem table_mirrored_skewed :
    (∃ t rho, (table skewed).result = .ok t ∧ t.entry? 2 0 = some (mutualInformation rho) ∧
      ∀ s ∈ clientScores t, s.isFinite = true ∧ zero.le s = true) ∧
    (table [.constant 2 2 .zero, .constant 2 2 .zero, .constant 1 1 .zero]).result
      = .error (.statistics .constantOutputs) ∧
    (table [.constant 2 2 .zero, .constant 1 1 .zero, .constant 2 2 .zero]).result
      = .error (.shape (.outputs (2, 2) (1, 1))) := by
  have hcomputed : (skewed.Pairwise fun a b =>
      (correlation a b).toOption.any (fun _ => true) = true) ∧
      rowCorrelations (.constant 2 2 .zero) (.constant 2 2 .zero) = [] := by
    decide +kernel
  obtain ⟨hexists, -, htable⟩ := table_mirrored skewed
  obtain ⟨t, ht⟩ := hexists.mpr (hcomputed.1.imp fun h =>
    let ⟨rho, hrho, _⟩ := exists_of_toOption h
    ⟨rho, hrho⟩)
  obtain ⟨-, -, hentry, -, -, hscores⟩ := htable t ht
  obtain ⟨rho, -, hvalue⟩ := hentry 2 0 _ _ (by decide) rfl rfl
  have hconstant : correlation (.constant 2 2 .zero) (.constant 2 2 .zero)
      = .error (.statistics .constantOutputs) := by
    rw [correlation, if_pos rfl, hcomputed.2]
  have hfirst : ∀ k l : Nat, k < l → ¬(k < 0 ∨ k = 0 ∧ l < 1) := by omega
  refine ⟨⟨t, rho, ht, hvalue, hscores⟩, ?_, ?_⟩
  · exact ((table_mirrored _).2.1 _).mpr ⟨0, 1, _, _, Nat.zero_lt_one, rfl, rfl, hconstant,
      fun k l _ _ hkl hvisit => absurd hvisit (hfirst k l hkl)⟩
  · exact ((table_mirrored _).2.1 _).mpr ⟨0, 1, _, _, Nat.zero_lt_one, rfl, rfl, rfl,
      fun k l _ _ hkl hvisit => absurd hvisit (hfirst k l hkl)⟩

end Information

end Federation
