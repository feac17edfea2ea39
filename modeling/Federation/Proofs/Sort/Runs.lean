import Mathlib.Data.List.Chain
import Mathlib.Data.List.Forall2
import Federation.Sort.Long
import Federation.Proofs.Sort.Halves

/-!
# Runs

The pieces a list is cut into lie on the stack of merges in their order. Each run is its piece,
sorted if it says so, and joining two runs is joining their pieces.
-/

set_option autoImplicit false

namespace Federation

variable {β κ : Type} [LinearOrder κ] {below : β → β → Bool} {key : β → κ} {xs ys zs : List β}
  {sort : List β → Option (List β)} {run next joined : Run β} {long room scale level stop : Nat}
  {eager : Bool} {runs : List (Run β)} {stack stack' : List (Run β × Nat)} {piece : List β}
  {pieces : List (List β)}

theorem stretch_isChain (below : β → β → Bool) (falling : Bool) (x : β) (xs : List β) :
    List.IsChain (fun x y => below y x = falling) (x :: xs.take (stretch below falling x xs)) := by
  induction xs generalizing x with
  | nil => exact .singleton x
  | cons y ys ih =>
    rw [stretch]
    split
    next he => exact .cons_cons he (ih y)
    next he => exact .singleton x

theorem existingRun_isChain (below : β → β → Bool) (xs : List β) :
    List.IsChain (fun x y => below y x = (existingRun below xs).2)
      (xs.take (existingRun below xs).1) := by
  match xs with
  | [] => exact .nil
  | [x] => exact .singleton x
  | x :: y :: ys => exact .cons_cons rfl (stretch_isChain below _ y ys)

theorem Ties.of_falling (h : xs.Pairwise fun x y => key y < key x) : Ties key xs xs.reverse := by
  induction xs with
  | nil => exact Ties.refl key []
  | cons x xs ih =>
    obtain ⟨hx, hxs⟩ := List.pairwise_cons.mp h
    rw [List.reverse_cons]
    refine ((Ties.refl key [x]).append (ih hxs)).trans (Ties.comm fun a ha b hb => ?_)
    obtain rfl := List.mem_singleton.mp ha
    exact (hx b (List.mem_reverse.mp hb)).ne'

theorem ascends_of_isChain (h : GoesBy below key xs)
    (hc : List.IsChain (fun x y => below y x = false) xs) : Ascends key xs := by
  have hle : List.IsChain (fun x y => key x ≤ key y) xs :=
    hc.imp_of_mem_imp fun x y hx hy hb => by simpa [h y hy x hx] using hb
  have : IsTrans β fun x y => key x ≤ key y := ⟨fun _ _ _ => le_trans⟩
  exact List.isChain_iff_pairwise.mp hle

theorem falls_of_isChain (h : GoesBy below key xs)
    (hc : List.IsChain (fun x y => below y x = true) xs) :
    xs.Pairwise fun x y => key y < key x := by
  have hlt : List.IsChain (fun x y => key y < key x) xs :=
    hc.imp_of_mem_imp fun x y hx hy hb => by simpa [h y hy x hx] using hb
  have : IsTrans β fun x y => key y < key x := ⟨fun _ _ _ hab hbc => hbc.trans hab⟩
  exact List.isChain_iff_pairwise.mp hlt

/-- A run is a piece of the list, sorted if it says so. -/
def Run.Holds (below : β → β → Bool) (piece : List β) (run : Run β) : Prop :=
  if run.sorted then SortOf below piece run.elements else run.elements = piece

theorem existingRun_sortOf (below : β → β → Bool) (xs : List β) :
    SortOf below (xs.take (existingRun below xs).1)
      (if (existingRun below xs).2 then (xs.take (existingRun below xs).1).reverse
        else xs.take (existingRun below xs).1) := by
  have hc := existingRun_isChain below xs
  split
  next hf =>
    rw [hf] at hc
    refine ⟨List.reverse_perm _, fun {κ _ key} h => ?_⟩
    have hlt := falls_of_isChain h hc
    exact ⟨List.pairwise_reverse.mpr (hlt.imp le_of_lt), Ties.of_falling hlt⟩
  next hf =>
    rw [Bool.not_eq_true _ |>.mp hf] at hc
    exact ⟨.refl _, fun h => ⟨ascends_of_isChain h hc, Ties.refl _ _⟩⟩

theorem nextRun_sound (h : nextRun below long eager xs = some run) :
    run.Holds below (xs.take (runLength below long eager xs)) := by
  rw [nextRun] at h
  by_cases hlong : long ≤ (existingRun below xs).1
  · rw [if_pos hlong] at h
    obtain rfl := Option.some.inj h
    rw [runLength, if_pos hlong]
    exact existingRun_sortOf below xs
  · rw [if_neg hlong] at h
    split_ifs at h
    · obtain ⟨ys, hs, h⟩ := Option.bind_eq_some_iff.mp h
      obtain rfl := Option.some.inj h
      exact (smallSort_sorts below).sound hs
    · obtain rfl := Option.some.inj h
      rfl

theorem nextRun_complete (h : GoesBy below key xs) (long : Nat) (eager : Bool) :
    ∃ run, nextRun below long eager xs = some run := by
  rw [nextRun]
  by_cases hlong : long ≤ (existingRun below xs).1
  · exact ⟨_, if_pos hlong⟩
  · rw [if_neg hlong]
    split_ifs
    · obtain ⟨ys, hs⟩ := (smallSort_sorts below).complete (h.mono (List.take_subset _ xs))
      exact ⟨_, by rw [hs]; rfl⟩
    · exact ⟨_, rfl⟩

theorem cutRuns_sound (long : Nat) (eager : Bool) (xs : List β) :
    ∀ {runs : List (Run β)}, cutRuns below long eager xs = some runs →
      ∃ pieces : List (List β),
        pieces.flatten = xs ∧ List.Forall₂ (Run.Holds below) pieces runs := by
  fun_induction cutRuns below long eager xs with
  | case1 =>
    intro runs h
    obtain rfl := Option.some.inj h
    exact ⟨[], rfl, .nil⟩
  | case2 x xs ih =>
    intro runs h
    obtain ⟨run, hr, h⟩ := Option.bind_eq_some_iff.mp h
    obtain ⟨rest, hs, h⟩ := Option.bind_eq_some_iff.mp h
    obtain rfl := Option.some.inj h
    obtain ⟨pieces, hp, hall⟩ := ih hs
    exact ⟨_ :: pieces, by rw [List.flatten_cons, hp, List.take_append_drop],
      .cons (nextRun_sound hr) hall⟩

theorem cutRuns_complete (long : Nat) (eager : Bool) (xs : List β) (h : GoesBy below key xs) :
    ∃ runs, cutRuns below long eager xs = some runs := by
  fun_induction cutRuns below long eager xs with
  | case1 => exact ⟨[], rfl⟩
  | case2 x xs ih =>
    obtain ⟨run, hr⟩ := nextRun_complete h long eager
    obtain ⟨runs, hs⟩ := ih (h.mono (List.drop_subset _ _))
    exact ⟨run :: runs, by rw [hr, hs]; rfl⟩

theorem settle_sound (hsort : Sorts below sort) (hr : run.Holds below piece)
    (h : run.settle sort = some ys) : SortOf below piece ys := by
  unfold Run.settle at h
  unfold Run.Holds at hr
  split_ifs at h hr with hs
  · exact Option.some.inj h ▸ hr
  · exact hr ▸ hsort.sound h

theorem settle_complete (hsort : Sorts below sort) (hr : run.Holds below piece)
    (h : GoesBy below key piece) : ∃ ys, run.settle sort = some ys := by
  unfold Run.settle
  unfold Run.Holds at hr
  split_ifs at hr ⊢ with hs
  · exact ⟨_, rfl⟩
  · rw [← hr] at h
    exact hsort.complete h

theorem join_sound (hsort : Sorts below sort) (hl : run.Holds below xs) (hr : next.Holds below ys)
    (h : Run.join below room sort run next = some joined) : joined.Holds below (xs ++ ys) := by
  unfold Run.join at h
  split_ifs at h with hs
  · obtain ⟨l, hl', h⟩ := Option.bind_eq_some_iff.mp h
    obtain ⟨r, hr', h⟩ := Option.bind_eq_some_iff.mp h
    obtain rfl := Option.some.inj h
    exact (merge_merged below l r).sortOf (settle_sound hsort hl hl') (settle_sound hsort hr hr')
  · obtain rfl := Option.some.inj h
    simp only [Bool.or_eq_true, not_or, Bool.not_eq_true] at hs
    rw [Run.Holds, hs.1.1] at hl
    rw [Run.Holds, hs.1.2] at hr
    exact congrArg₂ (· ++ ·) hl hr

theorem join_complete (room : Nat) (hsort : Sorts below sort) (hl : run.Holds below xs)
    (hr : next.Holds below ys) (h : GoesBy below key (xs ++ ys)) :
    ∃ joined, Run.join below room sort run next = some joined := by
  unfold Run.join
  split_ifs with hs
  · obtain ⟨l, hl'⟩ := settle_complete hsort hl (h.mono (List.subset_append_left xs ys))
    obtain ⟨r, hr'⟩ := settle_complete hsort hr (h.mono (List.subset_append_right xs ys))
    exact ⟨_, by rw [hl', hr']; rfl⟩
  · exact ⟨_, rfl⟩

/-- The runs on a stack, the last one first, are these pieces of the list. -/
def Stacked (below : β → β → Bool) : List (Run β × Nat) → List β → Prop
  | [], xs => xs = []
  | (run, _) :: stack, xs => ∃ ys zs, xs = ys ++ zs ∧ Stacked below stack ys ∧ run.Holds below zs

theorem Stacked.push (hs : Stacked below stack xs) (hr : run.Holds below ys) (deep : Nat) :
    Stacked below ((run, deep) :: stack) (xs ++ ys) := ⟨xs, ys, rfl, hs, hr⟩

theorem collapse_sound (hsort : Sorts below sort) (hs : Stacked below stack xs)
    (hr : run.Holds below ys)
    (h : collapse below room sort level stack run = some (stack', joined)) :
    ∃ vs ws, vs ++ ws = xs ++ ys ∧ Stacked below stack' vs ∧ joined.Holds below ws ∧
      (level = 0 → vs = []) := by
  induction stack generalizing run xs ys with
  | nil =>
    obtain ⟨rfl, rfl⟩ := Prod.mk.inj (Option.some.inj h)
    exact ⟨xs, ys, rfl, hs, hr, fun _ => hs⟩
  | cons top stack ih =>
    obtain ⟨left, deep⟩ := top
    obtain ⟨as, bs, rfl, hstack, hleft⟩ := hs
    rw [collapse] at h
    split_ifs at h with hdeep
    · obtain ⟨both, hb, h⟩ := Option.bind_eq_some_iff.mp h
      obtain ⟨vs, ws, he, hvs⟩ := ih hstack (join_sound hsort hleft hr hb) h
      exact ⟨vs, ws, by rw [he, List.append_assoc], hvs⟩
    · obtain ⟨rfl, rfl⟩ := Prod.mk.inj (Option.some.inj h)
      exact ⟨as ++ bs, ys, rfl, ⟨as, bs, rfl, hstack, hleft⟩, hr, fun h0 => by omega⟩

theorem collapse_complete (room level : Nat) (hsort : Sorts below sort)
    (hs : Stacked below stack xs) (hr : run.Holds below ys) (h : GoesBy below key (xs ++ ys)) :
    ∃ result, collapse below room sort level stack run = some result := by
  induction stack generalizing run xs ys with
  | nil => exact ⟨_, rfl⟩
  | cons top stack ih =>
    obtain ⟨left, deep⟩ := top
    obtain ⟨as, bs, rfl, hstack, hleft⟩ := hs
    rw [List.append_assoc] at h
    rw [collapse]
    split_ifs with hdeep
    · obtain ⟨both, hb⟩ := join_complete room hsort hleft hr
        (h.mono (List.subset_append_right as _))
      obtain ⟨result, he⟩ := ih hstack (join_sound hsort hleft hr hb) h
      exact ⟨result, by rw [hb]; exact he⟩
    · exact ⟨_, rfl⟩

theorem joinRuns_sound (hsort : Sorts below sort)
    (hall : List.Forall₂ (Run.Holds below) pieces runs)
    (hs : Stacked below stack xs) (hr : run.Holds below ys)
    (h : joinRuns below room scale sort stop stack run runs = some joined) :
    joined.Holds below (xs ++ (ys ++ pieces.flatten)) := by
  induction hall generalizing stop stack run xs ys with
  | nil =>
    obtain ⟨⟨rest, both⟩, hc, h⟩ := Option.bind_eq_some_iff.mp h
    obtain rfl := Option.some.inj h
    obtain ⟨vs, ws, he, -, hw, hv⟩ := collapse_sound hsort hs hr hc
    obtain rfl := hv rfl
    rw [List.flatten_nil, List.append_nil, ← he]
    exact hw
  | cons hnext _ ih =>
    obtain ⟨⟨rest, both⟩, hc, h⟩ := Option.bind_eq_some_iff.mp h
    obtain ⟨vs, ws, he, hv, hw, -⟩ := collapse_sound hsort hs hr hc
    have hj := ih (hv.push hw _) hnext h
    rwa [he, List.append_assoc] at hj

theorem joinRuns_complete (room scale stop : Nat) (hsort : Sorts below sort)
    (hall : List.Forall₂ (Run.Holds below) pieces runs) (hs : Stacked below stack xs)
    (hr : run.Holds below ys) (h : GoesBy below key (xs ++ (ys ++ pieces.flatten))) :
    ∃ joined, joinRuns below room scale sort stop stack run runs = some joined := by
  induction hall generalizing stop stack run xs ys with
  | nil =>
    rw [List.flatten_nil, List.append_nil] at h
    obtain ⟨result, hc⟩ := collapse_complete room 0 hsort hs hr h
    exact ⟨_, by rw [joinRuns, hc]; rfl⟩
  | @cons _ next _ _ hnext _ ih =>
    rw [← List.append_assoc] at h
    obtain ⟨⟨rest, both⟩, hc⟩ := collapse_complete room
      (borderLevel scale (stop - run.elements.length) stop (stop + next.elements.length))
      hsort hs hr
      (h.mono (List.subset_append_left _ _))
    obtain ⟨vs, ws, he, hv, hw, -⟩ := collapse_sound hsort hs hr hc
    obtain ⟨joined, hj⟩ := ih _ (hv.push hw _) hnext (by rwa [he])
    exact ⟨joined, by rw [joinRuns, hc]; exact hj⟩

theorem sortRuns_sorts (hsort : Sorts below sort) (room : Nat) (eager : Bool) :
    Sorts below (sortRuns below room eager sort) where
  sound {xs ys} h := by
    obtain ⟨runs, hc, h⟩ := Option.bind_eq_some_iff.mp h
    obtain ⟨pieces, rfl, hall⟩ := cutRuns_sound _ _ _ hc
    cases hall with
    | nil =>
      obtain rfl := Option.some.inj h
      exact SortOf.nil below
    | cons hr hall =>
      obtain ⟨joined, hj, h⟩ := Option.bind_eq_some_iff.mp h
      have hempty : Stacked below [] [] := rfl
      exact settle_sound hsort (joinRuns_sound hsort hall hempty hr hj) h
  complete {_ _ key xs} hg := by
    obtain ⟨runs, hc⟩ := cutRuns_complete (longRun xs.length) eager xs hg
    obtain ⟨pieces, rfl, hall⟩ := cutRuns_sound _ _ _ hc
    cases hall with
    | nil => exact ⟨[], by rw [sortRuns, hc]; rfl⟩
    | cons hr hall =>
      have hempty : Stacked below [] [] := rfl
      obtain ⟨joined, hj⟩ := joinRuns_complete room _ _ hsort hall hempty hr hg
      obtain ⟨ys, hs⟩ := settle_complete hsort (joinRuns_sound hsort hall hempty hr hj) hg
      exact ⟨ys, Option.bind_eq_some_iff.mpr ⟨_, hc, Option.bind_eq_some_iff.mpr ⟨joined, hj, hs⟩⟩⟩

end Federation
