import Federation.Proofs.Coordinates
import Federation.Proofs.Outcomes

/-!
# Flat parameters

A round by the plain mean and a step with momentum do not see how the coordinates are spread over
tensors. Flattening everything first gives what flattening the result gives, and so does looking at
one coordinate only: no coordinate enters another one.

Both are ways of taking coordinates out of parameters that go along with entrywise arithmetic. What
follows from that alone is shown once, for every such way.
-/

set_option autoImplicit false

namespace Federation

variable {α : Type}

/-- A way of taking entries out of a list, by their places and not by what they are. -/
structure Takes (take : List α → List α) : Prop where
  length_eq : ∀ {xs ys : List α}, xs.length = ys.length → (take xs).length = (take ys).length
  map_eq : ∀ (g : α → α) (xs : List α), take (xs.map g) = (take xs).map g
  zipWith_eq : ∀ (g : α → α → α) {xs ys : List α}, xs.length = ys.length →
    take (List.zipWith g xs ys) = List.zipWith g (take xs) (take ys)

theorem takes_all : Takes (α := α) id where
  length_eq := fun h => h
  map_eq := fun _ _ => rfl
  zipWith_eq := fun _ _ _ _ => rfl

theorem takes_one (k : Nat) : Takes (α := α) fun xs => xs[k]?.toList where
  length_eq := by
    intro xs ys h
    by_cases hk : k < xs.length
    · simp [hk, h ▸ hk]
    · simp [Nat.le_of_not_lt hk, h ▸ Nat.le_of_not_lt hk]
  map_eq := by
    intro g xs
    cases h : xs[k]? with
    | none => simp [h]
    | some x => simp [h]
  zipWith_eq := by
    intro g xs ys h
    by_cases hk : k < xs.length
    · simp [hk, h ▸ hk]
    · simp [Nat.le_of_not_lt hk, h ▸ Nat.le_of_not_lt hk]

namespace Params

def taken (take : List α → List α) (p : Params α) : Params α := .vector (take p.flatten)

def flat (p : Params α) : Params α := .vector p.flatten

theorem flatten_taken (take : List α → List α) (p : Params α) :
    (p.taken take).flatten = take p.flatten := by
  simp [taken, vector, flatten, Tensor.vector]

theorem layout_taken (take : List α → List α) (p : Params α) :
    (p.taken take).layout = [[(take p.flatten).length]] := rfl

variable {take : List α → List α} (ht : Takes take) {p q : Params α}

include ht

theorem layout_taken_eq (h : p.layout = q.layout) :
    (p.taken take).layout = (q.taken take).layout := by
  rw [layout_taken, layout_taken, ht.length_eq (length_flatten_of_layout h)]

theorem map_taken (g : α → α) (p : Params α) : (p.map g).taken take = (p.taken take).map g := by
  apply eq_of_flatten
  · rw [layout_map, layout_taken_eq ht (layout_map g p)]
  · rw [flatten_taken, flatten_map, flatten_map, flatten_taken, ht.map_eq]

variable [Scalar α]

theorem addScaled_taken (factor : α) (h : p.layout = q.layout) :
    (p.taken take).addScaled factor (q.taken take)
      = (p.addScaled factor q).map (taken take) := by
  obtain ⟨sum, hsum, hl⟩ := addScaled_exists factor h
  obtain ⟨tsum, htsum, htl⟩ := addScaled_exists factor (layout_taken_eq ht h)
  rw [hsum, htsum]
  apply congrArg Except.ok
  apply eq_of_flatten
  · rw [htl, layout_taken_eq ht hl]
  · rw [flatten_addScaled htsum, flatten_taken, flatten_taken, flatten_taken,
      flatten_addScaled hsum, ht.zipWith_eq _ (length_flatten_of_layout h)]

end Params

namespace Average

variable [Scalar α] {take : List α → List α} (ht : Takes take) {layout : List Shape}
  {us : List (Params α)}

include ht

theorem sum_taken {start : Params α} (h : ∀ u ∈ us, u.layout = layout)
    (hs : start.layout = layout) :
    (us.map (Params.taken take)).foldlM (fun sum u => Params.addScaled sum Scalar.one u)
        (start.taken take)
      = (us.foldlM (fun sum u => Params.addScaled sum Scalar.one u) start).map
          (Params.taken take) := by
  induction us generalizing start with
  | nil => rfl
  | cons u us ih =>
    have hu : start.layout = u.layout := hs.trans (h u (by simp)).symm
    obtain ⟨next, hn, hl⟩ := Params.addScaled_exists Scalar.one hu
    rw [List.map_cons, List.foldlM_cons, List.foldlM_cons, Params.addScaled_taken ht _ hu, hn]
    exact ih (fun v hv => h v (by simp [hv])) (hl.trans hs)

theorem ofList_taken (h : ∀ u ∈ us, u.layout = layout) :
    ofList (us.map (Params.taken take)) = (ofList us).map (Params.taken take) := by
  cases us with
  | nil => rfl
  | cons first rest =>
    have hz : first.zeros.layout = layout := (Params.layout_zeros first).trans (h first (by simp))
    obtain ⟨sum, hsum, -⟩ := sum_exists h hz
    have htaken := sum_taken ht h hz
    rw [hsum, Params.zeros, Params.map_taken ht, List.map_cons] at htaken
    have hn : (Params.taken take first :: rest.map (Params.taken take)).length
        = (first :: rest).length := by simp
    rw [List.map_cons, ofList, Params.zeros, htaken, hn, ofList, hsum]
    exact congrArg Except.ok (Params.map_taken ht _ sum).symm

omit [Scalar α] in
theorem obstacle?_taken {model : Params α} (h : obstacle? model us = none) :
    obstacle? (model.taken take) (us.map (Params.taken take)) = none := by
  obtain ⟨hne, hl⟩ := obstacle?_eq_none_iff.mp h
  refine obstacle?_eq_none_iff.mpr ⟨by simpa using hne, fun v hv => ?_⟩
  obtain ⟨u, hu, rfl⟩ := List.mem_map.mp hv
  exact Params.layout_taken_eq ht (hl u hu)

end Average

namespace State

def taken (take : List α → List α) (s : State α) : State α :=
  ⟨s.model.taken take, s.momentum.taken take⟩

def flat (s : State α) : State α := ⟨s.model.flat, s.momentum.flat⟩

/-- What the model and the momentum have at one coordinate. -/
def place (k : Nat) (s : State α) : Option α × Option α :=
  (s.model.flatten[k]?, s.momentum.flatten[k]?)

variable [Scalar α] {take : List α → List α} {s : State α} {direction : Params α}

theorem nesterov_taken (ht : Takes take) (beta rate : α)
    (hm : s.momentum.layout = s.model.layout) (hd : direction.layout = s.model.layout) :
    (s.taken take).nesterov (direction.taken take) beta rate
      = (s.nesterov direction beta rate).map (taken take) := by
  have hscale : (s.momentum.scale beta).layout = direction.layout := by
    rw [Params.layout_scale, hm, hd]
  obtain ⟨momentum, hmomentum, hl⟩ := Params.addScaled_exists (-rate) hscale
  obtain ⟨behind, hbehind, hb⟩ := Params.addScaled_exists (-beta) hm.symm
  have hahead : behind.layout = momentum.layout := by
    rw [hb, hl, Params.layout_scale, hm]
  obtain ⟨model, hmodel, -⟩ := Params.addScaled_exists (Scalar.one + beta) hahead
  have hmomentum' := Params.addScaled_taken ht (-rate) hscale
  have hbehind' := Params.addScaled_taken ht (-beta) hm.symm
  have hmodel' := Params.addScaled_taken ht (Scalar.one + beta) hahead
  rw [hmomentum, Params.scale, Params.map_taken ht] at hmomentum'
  rw [hbehind] at hbehind'
  rw [hmodel] at hmodel'
  simp only [nesterov, taken, Params.scale, hmomentum', hbehind', hmodel', Except.map,
    except_bind_ok]
  rw [Params.scale] at hmomentum
  rw [hmomentum, except_bind_ok, hbehind, except_bind_ok, hmodel]
  rfl

end State

namespace Outcome

def taken (take : List Single → List Single) (outcome : Outcome) : Outcome :=
  { outcome with state := outcome.state.taken take }

def flat (outcome : Outcome) : Outcome := { outcome with state := outcome.state.flat }

end Outcome

theorem Mean.round_taken {take : List Single → List Single} (ht : Takes take) (r : Mean)
    {state : State Single} {updates : List (Params Single)}
    (h : ∀ u ∈ updates, u.layout = state.model.layout) :
    (r.round (state.taken take) (updates.map (Params.taken take))).result
      = (r.round state updates).result.map (Outcome.taken take) := by
  by_cases hne : updates = []
  · rw [hne]
    rfl
  · have ho := Average.obstacle?_eq_none_iff.mpr ⟨hne, h⟩
    have hc := Average.check_ok_iff.mpr ⟨hne, h⟩
    have ho' := Average.obstacle?_eq_none_iff.mp (Average.obstacle?_taken ht ho)
    obtain ⟨mean, hmean, hl⟩ := Average.ofUpdates_exists ho
    obtain ⟨model, hmodel, -⟩ := Params.addScaled_exists (-r.rate) hl.symm
    have hmean' : Average.ofUpdates (updates.map (Params.taken take)) none
        = .ok (mean.taken take) := by
      rw [Average.ofUpdates_eq ho'.1 ho'.2, Average.ofList_taken ht h,
        ← Average.ofUpdates_eq hne h, hmean]
      rfl
    have hmodel' := Params.addScaled_taken ht (-r.rate) hl.symm
    rw [hmodel] at hmodel'
    rw [round_ok_iff.mpr ⟨mean, model, hc, hmean, hmodel, rfl⟩]
    refine round_ok_iff.mpr ⟨mean.taken take, model.taken take,
      Average.check_ok_iff.mpr ho', hmean', hmodel', ?_⟩
    rw [List.length_map]
    rfl

namespace State

variable {s s' : State α}

def only (k : Nat) (s : State α) : State α := s.taken fun xs => xs[k]?.toList

theorem place_zero_only (k : Nat) (s : State α) : (s.only k).place 0 = s.place k := by
  have htake : ∀ p : Params α, (p.taken fun xs => xs[k]?.toList).flatten[0]? = p.flatten[k]? := by
    intro p
    rw [Params.flatten_taken]
    cases p.flatten[k]? <;> rfl
  exact Prod.ext (htake s.model) (htake s.momentum)

theorem only_eq_of_place {k : Nat} (h : s.place k = s'.place k) : s.only k = s'.only k := by
  obtain ⟨hmodel, hmomentum⟩ := Prod.mk.inj h
  simp only [only, taken, Params.taken, hmodel, hmomentum]

/-- Results that cannot be told apart after everything but one coordinate is gone have that
coordinate in common. -/
theorem map_place_of_map_only {β : Type} {state : β → State α} {k : Nat} {x y : Except Fault β}
    (h : x.map (fun b => (state b).only k) = y.map fun b => (state b).only k) :
    x.map (fun b => (state b).place k) = y.map fun b => (state b).place k := by
  have hplace : ∀ z : Except Fault β, z.map (fun b => (state b).place k)
      = (z.map fun b => (state b).only k).map (place 0) := by
    intro z
    cases z with
    | error fault => rfl
    | ok b => exact congrArg Except.ok (place_zero_only k (state b)).symm
  rw [hplace, hplace, h]

end State

theorem Params.map_taken_of_place {k : Nat} {us us' : List (Params α)}
    (h : us.map (fun u => u.flatten[k]?) = us'.map fun u => u.flatten[k]?) :
    us.map (taken fun xs => xs[k]?.toList) = us'.map (taken fun xs => xs[k]?.toList) := by
  have hmap : ∀ vs : List (Params α), vs.map (taken fun xs => xs[k]?.toList)
      = (vs.map fun v => v.flatten[k]?).map fun x => .vector x.toList := by
    intro vs
    rw [List.map_map]
    rfl
  rw [hmap, hmap, h]

theorem Mean.round_place (r : Mean) {k : Nat} {state state' : State Single}
    {updates updates' : List (Params Single)}
    (h : ∀ u ∈ updates, u.layout = state.model.layout)
    (h' : ∀ u ∈ updates', u.layout = state'.model.layout) (hs : state.place k = state'.place k)
    (hu : updates.map (fun u => u.flatten[k]?) = updates'.map fun u => u.flatten[k]?) :
    (r.round state updates).result.map (fun outcome => outcome.state.place k)
      = (r.round state' updates').result.map fun outcome => outcome.state.place k := by
  have htaken := r.round_taken (takes_one k) h
  have htaken' := r.round_taken (takes_one k) h'
  rw [Params.map_taken_of_place hu, show state.taken _ = state'.taken _ from
    State.only_eq_of_place hs, htaken'] at htaken
  apply State.map_place_of_map_only
  have hstate : ∀ z : Except Fault Outcome, z.map (fun outcome => outcome.state.only k)
      = (z.map (Outcome.taken fun xs => xs[k]?.toList)).map Outcome.state := by
    intro z
    cases z <;> rfl
  rw [hstate, hstate, htaken]

theorem State.nesterov_place [Scalar α] {k : Nat} {s s' : State α} {direction direction' : Params α}
    (beta rate : α) (hm : s.momentum.layout = s.model.layout)
    (hd : direction.layout = s.model.layout) (hm' : s'.momentum.layout = s'.model.layout)
    (hd' : direction'.layout = s'.model.layout) (hs : s.place k = s'.place k)
    (hu : direction.flatten[k]? = direction'.flatten[k]?) :
    (s.nesterov direction beta rate).map (place k)
      = (s'.nesterov direction' beta rate).map (place k) := by
  have htaken := nesterov_taken (takes_one k) beta rate hm hd
  have htaken' := nesterov_taken (takes_one k) beta rate hm' hd'
  have hdirection : direction.taken (fun xs => xs[k]?.toList)
      = direction'.taken fun xs => xs[k]?.toList := by
    rw [Params.taken, hu, Params.taken]
  rw [hdirection, show s.taken _ = s'.taken _ from only_eq_of_place hs, htaken'] at htaken
  exact map_place_of_map_only htaken.symm

/-- How the coordinates are spread over tensors makes no difference to a round by the plain mean and
to a step with momentum: flattened inputs give the flattened result, entry for entry, and a
coordinate of the result depends on that coordinate of the inputs alone, even where the layouts are
not the same. In one layout a step always gives a result, and so does a round with any updates. -/
theorem layout_unseen :
    (∀ (r : Mean) (state : State Single) (updates : List (Params Single)),
      (∀ u ∈ updates, u.layout = state.model.layout) →
        (updates ≠ [] → ∃ outcome, (r.round state updates).result = .ok outcome) ∧
        (r.round state.flat (updates.map Params.flat)).result
          = (r.round state updates).result.map Outcome.flat ∧
        ∀ (k : Nat) (state' : State Single) (updates' : List (Params Single)),
          (∀ u ∈ updates', u.layout = state'.model.layout) → state.place k = state'.place k →
            updates.map (fun u => u.flatten[k]?) = updates'.map (fun u => u.flatten[k]?) →
              (r.round state updates).result.map (fun outcome => outcome.state.place k)
                = (r.round state' updates').result.map fun outcome => outcome.state.place k) ∧
    ∀ (α : Type) [Scalar α] (s : State α) (direction : Params α) (beta rate : α),
      s.momentum.layout = s.model.layout → direction.layout = s.model.layout →
        (∃ next, s.nesterov direction beta rate = .ok next) ∧
        s.flat.nesterov direction.flat beta rate
          = (s.nesterov direction beta rate).map State.flat ∧
        ∀ (k : Nat) (s' : State α) (direction' : Params α),
          s'.momentum.layout = s'.model.layout → direction'.layout = s'.model.layout →
            s.place k = s'.place k → direction.flatten[k]? = direction'.flatten[k]? →
              (s.nesterov direction beta rate).map (State.place k)
                = (s'.nesterov direction' beta rate).map (State.place k) := by
  constructor
  · intro r state updates h
    refine ⟨fun hne => ?_, r.round_taken takes_all h, fun k state' updates' h' hs hu =>
      r.round_place h h' hs hu⟩
    obtain ⟨outcome, ho, -⟩ := r.round_exists (Average.obstacle?_eq_none_iff.mpr ⟨hne, h⟩)
    exact ⟨outcome, ho⟩
  · intro α _ s direction beta rate hm hd
    exact ⟨State.nesterov_exists beta rate hm hd, State.nesterov_taken takes_all beta rate hm hd,
      fun k s' direction' hm' hd' hs hu => State.nesterov_place beta rate hm hd hm' hd' hs hu⟩

def mixed (a b c : Nat) : Params Single :=
  ⟨[⟨[1, 2], [.ofNat a, .ofNat b], rfl⟩, ⟨[], [.ofNat c], rfl⟩, ⟨[0, 3], [], rfl⟩]⟩

theorem layout_unseen_mixed :
    (Mean.round ⟨.ofNat 1, .zero⟩ (.flat ⟨mixed 1 2 3, mixed 0 0 1⟩)
          [(mixed 2 4 8).flat, (mixed 0 0 6).flat]).result
        = (Mean.round ⟨.ofNat 1, .zero⟩ ⟨mixed 1 2 3, mixed 0 0 1⟩
          [mixed 2 4 8, mixed 0 0 6]).result.map Outcome.flat ∧
      (State.nesterov ⟨mixed 1 2 3, mixed 0 0 1⟩ (mixed 2 4 8) (.ofNat 1) (.ofNat 2)).map
          (State.place 2)
        = (State.nesterov ⟨.vector [.nan, .nan, .ofNat 3], .vector [.nan, .nan, .ofNat 1]⟩
          (.vector [.nan, .nan, .ofNat 8]) (.ofNat 1) (.ofNat 2)).map (State.place 2) := by
  have hlayout : ∀ a b c, (mixed a b c).layout = [[1, 2], [], [0, 3]] := fun _ _ _ => rfl
  have hmixed : ∀ a b c, (mixed a b c).flatten[2]? = some (.ofNat c) := fun _ _ _ => rfl
  have hvector : ∀ c : Single, (Params.vector [.nan, .nan, c]).layout = [[3]] ∧
      (Params.vector [.nan, .nan, c]).flatten[2]? = some c := fun _ => ⟨rfl, rfl⟩
  obtain ⟨hround, hstep⟩ := layout_unseen
  constructor
  · exact (hround ⟨.ofNat 1, .zero⟩ ⟨mixed 1 2 3, mixed 0 0 1⟩ [mixed 2 4 8, mixed 0 0 6]
      (by simp [hlayout])).2.1
  · exact (hstep Single ⟨mixed 1 2 3, mixed 0 0 1⟩ (mixed 2 4 8) _ _ (by simp only [hlayout])
      (by simp only [hlayout])).2.2 2 _ _ (by simp only [hvector]) (by simp only [hvector])
        (by simp only [State.place, hmixed, hvector]) (by simp only [hmixed, hvector])

end Federation
