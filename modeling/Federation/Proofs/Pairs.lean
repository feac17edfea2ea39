import Federation.Pairwise
import Federation.Proofs.Results

/-!
# Entries of a table of pairs

The upper triangle is computed once and read from both sides. So an entry off the diagonal is the
quantity of the two members in the order of the list, and the table is as long as the list.
-/

set_option autoImplicit false

namespace Federation

variable {β γ : Type}

def Matrix.entry? (m : Matrix β) (i j : Nat) : Option β := m.rows[i]?.bind (·[j]?)

namespace Pairwise

theorem getElem?_forall₂ {R : β → γ → Prop} {xs : List β} {ys : List γ} {i : Nat} {x : β}
    (h : List.Forall₂ R xs ys) (hx : xs[i]? = some x) : ∃ y, ys[i]? = some y ∧ R x y := by
  induction h generalizing i with
  | nil => simp at hx
  | cons hr _ ih =>
    cases i with
    | zero => cases hx; exact ⟨_, rfl, hr⟩
    | succ i => simpa using ih (by simpa using hx)

theorem result_upper (quantity : β → β → Logged γ) (xs : List β) :
    (upper quantity xs).result = upper (fun x y => (quantity x y).result) xs := by
  induction xs with
  | nil => rfl
  | cons x xs ih =>
    simp only [upper, Logged.result_bind, Logged.result_mapM, ih]
    rfl

theorem result_table (diagonal : γ) (quantity : β → β → Logged γ) (xs : List β) :
    (table diagonal quantity xs).result
      = table diagonal (fun x y => (quantity x y).result) xs := by
  simp only [table, Logged.result_map, result_upper]

variable {quantity : β → β → Except Fault γ}

theorem upper_cons_ok_iff {x : β} {xs : List β} {rows : List (List γ)} :
    upper quantity (x :: xs) = .ok rows ↔
      ∃ row rest, List.Forall₂ (fun y z => quantity x y = .ok z) xs row ∧
        upper quantity xs = .ok rest ∧ rows = row :: rest := by
  simp only [upper, except_bind_ok_iff, mapM_ok_iff]
  constructor
  · rintro ⟨row, hr, rest, hu, h⟩
    exact ⟨row, rest, hr, hu, (Except.ok.inj h).symm⟩
  · rintro ⟨row, rest, hr, hu, rfl⟩
    exact ⟨row, hr, rest, hu, rfl⟩

theorem upper_length {xs : List β} {rows : List (List γ)} (h : upper quantity xs = .ok rows) :
    rows.length = xs.length := by
  induction xs generalizing rows with
  | nil => cases h; rfl
  | cons x xs ih =>
    obtain ⟨row, rest, -, hu, rfl⟩ := upper_cons_ok_iff.mp h
    simp [ih hu]

theorem upper_ok_iff {xs : List β} :
    (∃ rows, upper quantity xs = .ok rows) ↔ xs.Pairwise fun x y => ∃ z, quantity x y = .ok z := by
  induction xs with
  | nil => exact iff_of_true ⟨[], rfl⟩ .nil
  | cons x xs ih =>
    rw [List.pairwise_cons, ← ih]
    constructor
    · rintro ⟨rows, h⟩
      obtain ⟨row, rest, hr, hu, -⟩ := upper_cons_ok_iff.mp h
      exact ⟨forall_of_mapM_ok (mapM_ok_iff.mpr hr), rest, hu⟩
    · rintro ⟨hx, rest, hu⟩
      obtain ⟨row, hr⟩ := mapM_ok_of_forall hx
      exact ⟨row :: rest, upper_cons_ok_iff.mpr ⟨row, rest, mapM_ok_iff.mp hr, hu, rfl⟩⟩

theorem upper_ok {xs : List β} (h : xs.Pairwise fun x y => ∃ z, quantity x y = .ok z) :
    ∃ rows, upper quantity xs = .ok rows := upper_ok_iff.mpr h

/-- The quantity fails on a pair, and on none that is visited before it. -/
def FirstFault (quantity : β → β → Except Fault γ) (xs : List β) (fault : Fault) : Prop :=
  ∃ (i j : Nat) (x y : β), i < j ∧ xs[i]? = some x ∧ xs[j]? = some y ∧
    quantity x y = .error fault ∧
    ∀ (k l : Nat) (u v : β), k < l → k < i ∨ k = i ∧ l < j → xs[k]? = some u → xs[l]? = some v →
      ∃ z, quantity u v = .ok z

theorem firstFault_cons_iff {x : β} {xs : List β} {fault : Fault} :
    FirstFault quantity (x :: xs) fault ↔
      Federation.FirstFault (quantity x) xs fault ∨
        (∀ y ∈ xs, ∃ z, quantity x y = .ok z) ∧ FirstFault quantity xs fault := by
  constructor
  · rintro ⟨i, j, y, z, hij, hy, hz, hf, hbefore⟩
    obtain ⟨j, rfl⟩ : ∃ m, j = m + 1 := ⟨j - 1, by omega⟩
    rw [List.getElem?_cons_succ] at hz
    cases i with
    | zero =>
      cases hy
      refine Or.inl ⟨j, z, hz, hf, fun k hk u hu => ?_⟩
      exact hbefore 0 (k + 1) x u (Nat.succ_pos k) (Or.inr ⟨rfl, Nat.succ_lt_succ hk⟩) rfl hu
    | succ i =>
      rw [List.getElem?_cons_succ] at hy
      refine Or.inr ⟨fun u hu => ?_, i, j, y, z, Nat.lt_of_succ_lt_succ hij, hy, hz, hf, ?_⟩
      · obtain ⟨k, hk⟩ := List.mem_iff_getElem?.mp hu
        exact hbefore 0 (k + 1) x u (Nat.succ_pos k) (Or.inl (Nat.succ_pos i)) rfl hk
      · intro k l u v hkl hvisit hu hv
        exact hbefore (k + 1) (l + 1) u v (by omega) (by omega) hu hv
  · rintro (⟨j, z, hz, hf, hbefore⟩ | ⟨hx, i, j, y, z, hij, hy, hz, hf, hbefore⟩)
    · refine ⟨0, j + 1, x, z, Nat.succ_pos j, rfl, hz, hf, ?_⟩
      intro k l u v hkl hvisit hu hv
      obtain ⟨l, rfl⟩ : ∃ m, l = m + 1 := ⟨l - 1, by omega⟩
      obtain rfl : k = 0 := by omega
      cases hu
      exact hbefore l (by omega) v hv
    · refine ⟨i + 1, j + 1, y, z, Nat.succ_lt_succ hij, hy, hz, hf, ?_⟩
      intro k l u v hkl hvisit hu hv
      obtain ⟨l, rfl⟩ : ∃ m, l = m + 1 := ⟨l - 1, by omega⟩
      rw [List.getElem?_cons_succ] at hv
      cases k with
      | zero =>
        cases hu
        exact hx v (List.mem_of_getElem? hv)
      | succ k => exact hbefore k l u v (by omega) (by omega) hu hv

theorem upper_error_iff {xs : List β} {fault : Fault} :
    upper quantity xs = .error fault ↔ FirstFault quantity xs fault := by
  induction xs with
  | nil =>
    refine iff_of_false (by simp [upper, pure, Except.pure]) ?_
    rintro ⟨i, j, x, y, -, hx, -⟩
    simp at hx
  | cons x xs ih =>
    rw [firstFault_cons_iff, ← ih, ← mapM_error_iff, upper]
    cases hr : xs.mapM (quantity x) with
    | error first =>
      obtain ⟨i, y, hy, hf, -⟩ := mapM_error_iff.mp hr
      have hsome : ¬∀ y ∈ xs, ∃ z, quantity x y = .ok z := by
        intro hall
        obtain ⟨z, hz⟩ := hall y (List.mem_of_getElem? hy)
        rw [hf] at hz
        cases hz
      simp [bind, Except.bind, hsome]
    | ok row =>
      have hall := forall_of_mapM_ok hr
      cases hu : upper quantity xs with
      | error first => simpa [bind, Except.bind] using fun _ => hall
      | ok rest => simp [bind, Except.bind, pure, Except.pure]

theorem upper_error {xs : List β} {fault : Fault}
    (h : ∀ x ∈ xs, ∀ y ∈ xs, (∃ z, quantity x y = .ok z) ∨ quantity x y = .error fault)
    (hx : ¬xs.Pairwise fun x y => ∃ z, quantity x y = .ok z) :
    upper quantity xs = .error fault := by
  cases hu : upper quantity xs with
  | ok rows => exact absurd (upper_ok_iff.mp ⟨rows, hu⟩) hx
  | error first =>
    obtain ⟨i, j, x, y, -, hi, hj, hf, -⟩ := upper_error_iff.mp hu
    rcases h x (List.mem_of_getElem? hi) y (List.mem_of_getElem? hj) with ⟨z, hz⟩ | hsame
    · rw [hf] at hz
      cases hz
    · exact congrArg Except.error (Except.error.inj (hf.symm.trans hsame))

theorem lookup_comm (default : γ) (rows : List (List γ)) (i j : Nat) :
    lookup default rows i j = lookup default rows j i := by
  unfold lookup
  rw [Nat.min_comm, Nat.max_comm]

theorem lookup_upper {xs : List β} {rows : List (List γ)} {i j : Nat} {x y : β} (default : γ)
    (h : upper quantity xs = .ok rows) (hij : i < j) (hx : xs[i]? = some x)
    (hy : xs[j]? = some y) : quantity x y = .ok (lookup default rows i j) := by
  induction xs generalizing rows i j with
  | nil => simp at hx
  | cons w xs ih =>
    obtain ⟨row, rest, hr, hu, rfl⟩ := upper_cons_ok_iff.mp h
    cases j with
    | zero => omega
    | succ j =>
      cases i with
      | zero =>
        cases hx
        have hy' : xs[j]? = some y := by simpa using hy
        obtain ⟨z, hz, hq⟩ := getElem?_forall₂ hr hy'
        simp [lookup, hz, hq]
      | succ i =>
        have hm : lookup default (row :: rest) (i + 1) (j + 1) = lookup default rest i j := by
          unfold lookup
          rw [Nat.succ_min_succ, Nat.succ_max_succ]
          simp
        rw [hm]
        exact ih hu (by omega) (by simpa using hx) (by simpa using hy)

theorem table_ok_iff {diagonal : γ} {xs : List β} {t : Matrix γ} :
    table diagonal quantity xs = .ok t ↔
      ∃ rows, upper quantity xs = .ok rows ∧ t = symmetric diagonal rows := by
  unfold table
  cases upper quantity xs with
  | error fault => simp [Functor.map, Except.map]
  | ok rows => simp [Functor.map, Except.map, eq_comm]

/-- The cells of a table: one value between a member and itself, and elsewhere the quantity of the
two members in the order of the list, in both places. -/
theorem rows_of_table {diagonal : γ} {xs : List β} {t : Matrix γ}
    (h : table diagonal quantity xs = .ok t) :
    ∃ cell : Nat → Nat → γ, (∀ i, cell i i = diagonal) ∧ (∀ i j, cell i j = cell j i) ∧
      (∀ (i j : Nat) (x y : β), i < j → xs[i]? = some x → xs[j]? = some y →
        quantity x y = .ok (cell i j)) ∧
      t.rows = (List.range xs.length).map fun i => (List.range xs.length).map (cell i) := by
  obtain ⟨rows, hu, rfl⟩ := table_ok_iff.mp h
  have hl := upper_length hu
  refine ⟨fun i j => if i = j then diagonal else lookup diagonal rows i j, by simp, ?_, ?_, ?_⟩
  · intro i j
    simp only [eq_comm (a := i), lookup_comm diagonal rows i]
  · intro i j x y hij hx hy
    simp only [if_neg (Nat.ne_of_lt hij)]
    exact lookup_upper diagonal hu hij hx hy
  · simp only [symmetric, Matrix.ofFn, hl]

theorem forall_mem_table {diagonal : γ} {xs : List β} {t : Matrix γ} {P : γ → Prop}
    (h : table diagonal quantity xs = .ok t) (hd : P diagonal)
    (hq : ∀ x ∈ xs, ∀ y ∈ xs, ∀ z, quantity x y = .ok z → P z) :
    ∀ row ∈ t.rows, ∀ z ∈ row, P z := by
  obtain ⟨cell, hdiagonal, hcomm, hquantity, hrows⟩ := rows_of_table h
  have hbefore : ∀ i j, i < j → i < xs.length → j < xs.length → P (cell i j) := by
    intro i j hij hi hj
    exact hq _ (List.getElem_mem hi) _ (List.getElem_mem hj) _
      (hquantity i j _ _ hij (List.getElem?_eq_getElem hi) (List.getElem?_eq_getElem hj))
  intro row hrow z hz
  rw [hrows] at hrow
  obtain ⟨i, hi, rfl⟩ := List.mem_map.mp hrow
  obtain ⟨j, hj, rfl⟩ := List.mem_map.mp hz
  rw [List.mem_range] at hi hj
  rcases Nat.lt_trichotomy i j with hij | rfl | hij
  · exact hbefore i j hij hi hj
  · rw [hdiagonal]
    exact hd
  · rw [hcomm]
    exact hbefore j i hij hj hi

theorem width_table {diagonal : γ} {xs : List β} {t : Matrix γ}
    (h : table diagonal quantity xs = .ok t) : t.width = xs.length := by
  obtain ⟨rows, hu, rfl⟩ := table_ok_iff.mp h
  exact upper_length hu

theorem height_table {diagonal : γ} {xs : List β} {t : Matrix γ}
    (h : table diagonal quantity xs = .ok t) : t.height = xs.length := by
  obtain ⟨rows, hu, rfl⟩ := table_ok_iff.mp h
  simp [symmetric, Matrix.height, Matrix.ofFn, upper_length hu]

end Pairwise

end Federation
