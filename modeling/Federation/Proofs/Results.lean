import Federation.Logged
import Mathlib.Data.List.Forall2

/-!
# Results of sequences

A sequence of steps returns a value exactly when every step does. The events of a logged computation
play no part in its result, so its result is that of the same steps without a log.
-/

set_option autoImplicit false

namespace Federation

variable {α β : Type}

theorem except_bind_ok (a : α) (next : α → Except Fault β) : (.ok a >>= next) = next a := rfl

theorem except_bind_ok_iff {x : Except Fault α} {next : α → Except Fault β} {b : β} :
    x >>= next = .ok b ↔ ∃ a, x = .ok a ∧ next a = .ok b := by
  cases x with
  | error fault => simp [bind, Except.bind]
  | ok a => simp [bind, Except.bind]

theorem except_bind_error_iff {x : Except Fault α} {next : α → Except Fault β} {fault : Fault} :
    x >>= next = .error fault ↔ x = .error fault ∨ ∃ a, x = .ok a ∧ next a = .error fault := by
  cases x with
  | error first => simp [bind, Except.bind]
  | ok a => simp [bind, Except.bind]

theorem exists_of_toOption {x : Except Fault α} {test : α → Bool}
    (h : x.toOption.any test = true) : ∃ a, x = .ok a ∧ test a = true := by
  cases x with
  | error fault => cases h
  | ok a => exact ⟨a, rfl, h⟩

theorem mapM_ok_iff {g : α → Except Fault β} {xs : List α} {ys : List β} :
    xs.mapM g = .ok ys ↔ List.Forall₂ (fun x y => g x = .ok y) xs ys := by
  induction xs generalizing ys with
  | nil => simp [pure, Except.pure, eq_comm]
  | cons x xs ih =>
    simp only [List.mapM_cons, except_bind_ok_iff, List.forall₂_cons_left_iff, ← ih]
    constructor
    · rintro ⟨y, hy, rest, hr, h⟩
      exact ⟨y, rest, hy, hr, (Except.ok.inj h).symm⟩
    · rintro ⟨y, rest, hy, hr, rfl⟩
      exact ⟨y, hy, rest, hr, rfl⟩

theorem mapM_ok_of_forall {g : α → Except Fault β} {xs : List α}
    (h : ∀ x ∈ xs, ∃ y, g x = .ok y) : ∃ ys, xs.mapM g = .ok ys := by
  induction xs with
  | nil => exact ⟨[], rfl⟩
  | cons x xs ih =>
    obtain ⟨y, hy⟩ := h x (by simp)
    obtain ⟨ys, hys⟩ := ih fun z hz => h z (by simp [hz])
    exact ⟨y :: ys, mapM_ok_iff.mpr (.cons hy (mapM_ok_iff.mp hys))⟩

theorem forall_of_mapM_ok {g : α → Except Fault β} {xs : List α} {ys : List β}
    (h : xs.mapM g = .ok ys) : ∀ x ∈ xs, ∃ y, g x = .ok y := by
  have hall := mapM_ok_iff.mp h
  clear h
  induction hall with
  | nil => simp
  | cons hx _ ih => exact List.forall_mem_cons.mpr ⟨⟨_, hx⟩, ih⟩

theorem filterMap_of_forall₂ {g : α → Option β} {xs : List α} {ys : List β}
    (h : List.Forall₂ (fun x y => g x = some y) xs ys) : xs.filterMap g = ys := by
  induction h with
  | nil => rfl
  | cons hx _ ih => rw [List.filterMap_cons_some hx, ih]

/-- The step fails on a member of the list, and on none before it. -/
def FirstFault (g : α → Except Fault β) (xs : List α) (fault : Fault) : Prop :=
  ∃ (i : Nat) (x : α), xs[i]? = some x ∧ g x = .error fault ∧
    ∀ k < i, ∀ y, xs[k]? = some y → ∃ z, g y = .ok z

theorem not_firstFault_nil (g : α → Except Fault β) (fault : Fault) : ¬FirstFault g [] fault := by
  simp [FirstFault]

theorem firstFault_cons_iff {g : α → Except Fault β} {x : α} {xs : List α} {fault : Fault} :
    FirstFault g (x :: xs) fault ↔
      g x = .error fault ∨ (∃ z, g x = .ok z) ∧ FirstFault g xs fault := by
  constructor
  · rintro ⟨i, y, hy, hf, hbefore⟩
    cases i with
    | zero =>
      cases hy
      exact Or.inl hf
    | succ i =>
      refine Or.inr ⟨hbefore 0 (Nat.succ_pos i) x rfl, i, y, by simpa using hy, hf, ?_⟩
      intro k hk z hz
      exact hbefore (k + 1) (Nat.succ_lt_succ hk) z (by simpa using hz)
  · rintro (hf | ⟨hx, i, y, hy, hf, hbefore⟩)
    · exact ⟨0, x, rfl, hf, fun k hk => absurd hk (Nat.not_lt_zero k)⟩
    · refine ⟨i + 1, y, by simpa using hy, hf, ?_⟩
      intro k hk z hz
      cases k with
      | zero =>
        cases hz
        exact hx
      | succ k => exact hbefore k (Nat.lt_of_succ_lt_succ hk) z (by simpa using hz)

theorem mapM_error_iff {g : α → Except Fault β} {xs : List α} {fault : Fault} :
    xs.mapM g = .error fault ↔ FirstFault g xs fault := by
  induction xs with
  | nil => exact iff_of_false (by simp [pure, Except.pure]) (not_firstFault_nil g fault)
  | cons x xs ih =>
    rw [firstFault_cons_iff, ← ih, List.mapM_cons]
    cases hx : g x with
    | error first => simp [bind, Except.bind]
    | ok y =>
      cases hxs : xs.mapM g with
      | error first => simp [bind, Except.bind]
      | ok ys => simp [bind, Except.bind, pure, Except.pure]

namespace Logged

@[simp] theorem result_lift (x : Except Fault α) : (liftM x : Logged α).result = x := rfl

@[simp] theorem result_emit (event : Event) : (emit event).result = .ok () := rfl

@[simp] theorem result_fail (fault : Fault) : (fail fault : Logged α).result = .error fault := rfl

@[simp] theorem result_pure (a : α) : (pure a : Logged α).result = .ok a := rfl

theorem result_bind (x : Logged α) (next : α → Logged β) :
    (x >>= next).result = x.result >>= fun a => (next a).result := by
  cases h : x.result with
  | ok a => rw [bind_ok h]; rfl
  | error fault => rw [bind_error h]; rfl

theorem result_bind_ok_iff {x : Logged α} {next : α → Logged β} {b : β} :
    (x >>= next).result = .ok b ↔ ∃ a, x.result = .ok a ∧ (next a).result = .ok b := by
  rw [result_bind, except_bind_ok_iff]

@[simp] theorem events_lift (x : Except Fault α) : (liftM x : Logged α).events = [] := rfl

@[simp] theorem events_emit (event : Event) : (emit event).events = [event] := rfl

@[simp] theorem events_pure (a : α) : (pure a : Logged α).events = [] := rfl

theorem events_bind_of_ok {x : Logged α} {a : α} (h : x.result = .ok a) (next : α → Logged β) :
    (x >>= next).events = x.events ++ (next a).events := by
  rw [bind_ok h]

theorem bind_pure_eq (x : Logged α) : (x >>= fun a => pure a) = x := by
  cases h : x.result with
  | ok a =>
    rw [bind_ok h]
    cases x
    cases h
    simp [pure]
  | error fault =>
    rw [bind_error h]
    cases x
    cases h
    rfl

theorem bind_assoc_eq {γ : Type} (x : Logged α) (g : α → Logged β) (k : β → Logged γ) :
    (x >>= g) >>= k = x >>= fun a => g a >>= k := by
  cases hx : x.result with
  | error fault => rw [bind_error hx, bind_error hx, bind_error rfl]
  | ok a =>
    rw [bind_ok hx, bind_ok hx]
    cases hg : (g a).result with
    | error fault => rw [bind_error hg, bind_error rfl]
    | ok b => rw [bind_ok hg, bind_ok rfl]; simp

instance : LawfulMonad Logged :=
  LawfulMonad.mk' Logged (fun x => bind_pure_eq x) (fun a next => bind_ok rfl next)
    (fun x g k => bind_assoc_eq x g k)

theorem result_map (g : α → β) (x : Logged α) : (g <$> x).result = g <$> x.result := by
  rw [← bind_pure_comp, result_bind]
  cases x.result <;> rfl

theorem result_mapM (g : α → Logged β) (xs : List α) :
    (xs.mapM g).result = xs.mapM fun x => (g x).result := by
  induction xs with
  | nil => rfl
  | cons x xs ih =>
    simp only [List.mapM_cons, result_bind, ih, result_pure]
    rfl

end Logged

end Federation
