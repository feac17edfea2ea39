import Federation.Scalar

/-!
# Matrices

Probe batches, probe outputs and tables of pairs of clients are matrices: rows of one width, which
is kept apart so that a matrix without rows has one too.
-/

set_option autoImplicit false

namespace Federation

structure Matrix (α : Type) where
  width : Nat
  rows : List (List α)
  length_row : ∀ row ∈ rows, row.length = width
  deriving DecidableEq

namespace Matrix

variable {α β : Type}

def height (m : Matrix α) : Nat := m.rows.length

def size (m : Matrix α) : Nat × Nat := (m.height, m.width)

def ofFn (height width : Nat) (entry : Nat → Nat → α) : Matrix α where
  width := width
  rows := (List.range height).map fun i => (List.range width).map (entry i)
  length_row := by simp

def cut (width : Nat) : (height : Nat) → List α → List (List α)
  | 0, _ => []
  | height + 1, entries => entries.take width :: cut width height (entries.drop width)

theorem length_cut (width height : Nat) (entries : List α) :
    (cut width height entries).length = height := by
  induction height generalizing entries with
  | zero => rfl
  | succ height ih => simp [cut, ih]

theorem length_of_mem_cut {width height : Nat} {entries : List α}
    (h : entries.length = height * width) :
    ∀ row ∈ cut width height entries, row.length = width := by
  induction height generalizing entries with
  | zero => simp [cut]
  | succ height ih =>
    have hl : entries.length = height * width + width := by rw [h, Nat.succ_mul]
    simp only [cut, List.mem_cons, forall_eq_or_imp, List.length_take]
    refine ⟨by omega, ih ?_⟩
    rw [List.length_drop]
    omega

def ofEntries (height width : Nat) (entries : List α) (h : entries.length = height * width) :
    Matrix α where
  width := width
  rows := cut width height entries
  length_row := length_of_mem_cut h

def entries (m : Matrix α) : List α := m.rows.flatten

theorem length_entries (m : Matrix α) : m.entries.length = m.height * m.width := by
  obtain ⟨width, rows, h⟩ := m
  simp only [entries, height]
  induction rows with
  | nil => simp
  | cons row rows ih =>
    rw [List.flatten_cons, List.length_append, h row (by simp),
      ih (fun r hr => h r (by simp [hr])), List.length_cons, Nat.succ_mul, Nat.add_comm]

def constant (height width : Nat) (x : α) : Matrix α where
  width := width
  rows := List.replicate height (List.replicate width x)
  length_row row h := by simp [List.eq_of_mem_replicate h]

def mapRows (m : Matrix α) (width : Nat) (g : List α → List β)
    (h : ∀ row, row.length = m.width → (g row).length = width) : Matrix β where
  width := width
  rows := m.rows.map g
  length_row := by
    intro row hr
    obtain ⟨r, hm, rfl⟩ := List.mem_map.mp hr
    exact h r (m.length_row r hm)

end Matrix

end Federation
