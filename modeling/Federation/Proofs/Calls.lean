import Federation.Proofs.Coordinates
import Federation.Proofs.Probes

/-!
# Calls of a probe

A probe is loaded and run any number of times, in any order. A model is taken whole or refused
whole, for its layout alone, so a probe always holds the last model that was taken, or the zeros
that it started with. A run takes the rows of a batch one by one, and the loaded parameters are all
that one row has in common with another.
-/

set_option autoImplicit false

namespace Federation

namespace Matrix

variable {α : Type}

theorem eq_of_rows {a b : Matrix α} (hw : a.width = b.width) (hr : a.rows = b.rows) : a = b := by
  cases a
  cases b
  cases hw
  cases hr
  rfl

def stack (top bottom : Matrix α) (h : bottom.width = top.width) : Matrix α where
  width := top.width
  rows := top.rows ++ bottom.rows
  length_row := by
    intro row hr
    rcases List.mem_append.mp hr with ht | hb
    · exact top.length_row row ht
    · exact (bottom.length_row row hb).trans h

end Matrix

namespace Tensor

variable {t : Tensor Single} {m : Matrix Single} {entries : List Single}

theorem shape_of_matrix? (h : t.matrix? = some m) : t.shape = [m.height, m.width] := by
  by_cases hs : ∃ height width, t.shape = [height, width]
  · obtain ⟨height, width, hs⟩ := hs
    obtain ⟨m', hm, hsize, -⟩ := matrix?_of_shape hs
    cases hm.symm.trans h
    rw [hs, show m.height = height from congrArg Prod.fst hsize,
      show m.width = width from congrArg Prod.snd hsize]
  · rw [matrix?_eq_none fun height width he => hs ⟨height, width, he⟩] at h
    cases h

theorem ofMatrix_of_matrix? (h : t.matrix? = some m) : ofMatrix m = t := by
  have hs := shape_of_matrix? h
  obtain ⟨m', hm, -, he⟩ := matrix?_of_shape hs
  cases hm.symm.trans h
  exact eq_of_entries hs.symm he

theorem vector_of_vector? (h : t.vector? = some entries) : vector entries = t := by
  by_cases hs : ∃ n, t.shape = [n]
  · obtain ⟨n, hs⟩ := hs
    rw [vector?_of_shape hs] at h
    cases h
    refine eq_of_entries ?_ rfl
    rw [hs]
    simp [vector, t.length_entries, hs, Shape.volume]
  · rw [vector?_eq_none fun n he => hs ⟨n, he⟩] at h
    cases h

end Tensor

namespace Probe

/-- The two parts of a probe that a load assigns to. Between the assignments they need not fit each
other. -/
structure Slots where
  weights : Matrix Single
  bias : List Single

def slots (p : Probe) : Slots := ⟨p.weights, p.bias⟩

/-- A load as a sequence of assignments. Where it is refused it stops, and leaves the parts as they
are at that point. -/
def store (candidate : Params Single) : EStateM Fault Slots Unit :=
  match candidate.tensors with
  | [w, b] => do
    let some weights := w.matrix? | throw (.shape .rank)
    let some bias := b.vector? | throw (.shape .rank)
    let held ← get
    if weights.size ≠ held.weights.size ∨ bias.length ≠ held.bias.length then
      throw (.probe (.sizes held.weights.size held.bias.length weights.size bias.length))
    modify fun s => { s with weights := weights }
    modify fun s => { s with bias := bias }
  | ts => throw (.probe (.tensorCount ts.length))

theorem run_store_pair {p : Probe} {w b : Tensor Single} {weights : Matrix Single}
    {bias : List Single} (hw : w.matrix? = some weights) (hb : b.vector? = some bias) :
    (store ⟨[w, b]⟩).run p.slots =
      if weights.size = p.weights.size ∧ bias.length = p.bias.length then .ok () ⟨weights, bias⟩
      else .error (.probe (.sizes p.weights.size p.bias.length weights.size bias.length))
        p.slots := by
  simp only [store, hw, hb]
  show EStateM.run (if weights.size ≠ p.slots.weights.size ∨ bias.length ≠ p.slots.bias.length
    then _ else _) _ = _
  by_cases hfit : weights.size = p.weights.size ∧ bias.length = p.bias.length
  · have hpass : ¬(weights.size ≠ p.slots.weights.size ∨ bias.length ≠ p.slots.bias.length) :=
      fun h => h.elim (fun hne => hne hfit.1) fun hne => hne hfit.2
    rw [if_pos hfit, if_neg hpass]
    rfl
  · have hstop : weights.size ≠ p.slots.weights.size ∨ bias.length ≠ p.slots.bias.length :=
      not_and_or.mp hfit
    rw [if_neg hfit, if_pos hstop]
    rfl

/-- Every check comes before the first assignment, so a load that is refused leaves the parts that
it found. -/
theorem run_store (p : Probe) (candidate : Params Single) :
    (store candidate).run p.slots = match p.load candidate with
      | .ok loaded => .ok () loaded.slots
      | .error fault => .error fault p.slots := by
  obtain ⟨tensors⟩ := candidate
  match tensors with
  | [] => rfl
  | [_] => rfl
  | _ :: _ :: _ :: _ => rfl
  | [w, b] =>
    cases hw : w.matrix? with
    | none =>
      rw [load_of_rank (.inl hw)]
      simp only [store, hw]
      rfl
    | some weights =>
      cases hb : b.vector? with
      | none =>
        rw [load_of_rank (.inr hb)]
        simp only [store, hw, hb]
        rfl
      | some bias =>
        rw [run_store_pair hw hb]
        have hload := load_of_matrix (p := p) hw hb
        split at hload
        · obtain ⟨loaded, hok, rfl, rfl⟩ := hload
          rw [if_pos ‹_›, hok]
          rfl
        · rw [if_neg ‹_›, hload]

inductive Call where
  | load (candidate : Params Single)
  | forward (batch : Matrix Single)

def call (p : Probe) : Call → Probe × Except Fault (Option (Matrix Single))
  | .load candidate =>
    match p.load candidate with
    | .ok loaded => (loaded, .ok none)
    | .error fault => (p, .error fault)
  | .forward batch => (p, (p.forward batch).map some)

theorem run_store_of_call (p : Probe) (candidate : Params Single) :
    (store candidate).run p.slots = match p.call (.load candidate) with
      | (q, .ok _) => .ok () q.slots
      | (q, .error fault) => .error fault q.slots := by
  rw [run_store, call]
  cases p.load candidate <;> rfl

def layout (inputs outputs : Nat) : List Shape := [[inputs, outputs], [outputs]]

/-- Why a probe of the given sizes refuses a layout. -/
inductive Refuses (inputs outputs : Nat) : List Shape → Fault → Prop
  | count {shapes : List Shape} (h : shapes.length ≠ 2) :
    Refuses inputs outputs shapes (.probe (.tensorCount shapes.length))
  | rank {weights bias : Shape} (h : weights.length ≠ 2 ∨ bias.length ≠ 1) :
    Refuses inputs outputs [weights, bias] (.shape .rank)
  | sizes {height width n : Nat} (h : [[height, width], [n]] ≠ layout inputs outputs) :
    Refuses inputs outputs [[height, width], [n]]
      (.probe (.sizes (inputs, outputs) outputs (height, width) n))

/-- A probe of the given sizes and activation that holds the given parameters. -/
structure IsAt (p : Probe) (inputs outputs : Nat) (activation : Activation)
    (held : Params Single) : Prop where
  inputs : p.inputs = inputs
  outputs : p.outputs = outputs
  activation : p.activation = activation
  params : p.params = held

variable {p loaded : Probe} {inputs outputs : Nat} {activation : Activation}
  {held candidate : Params Single} {shapes : List Shape} {fault : Fault}

theorem params_of_load (h : p.load candidate = .ok loaded) : loaded.params = candidate := by
  obtain ⟨tensors⟩ := candidate
  unfold load at h
  split at h
  · rename_i w b ht
    cases ht
    split at h
    · rename_i weights bias hw hb
      split at h
      · cases h
        rw [params, Tensor.ofMatrix_of_matrix? hw, Tensor.vector_of_vector? hb]
      · cases h
    · cases h
  · cases h

theorem IsAt.size (h : p.IsAt inputs outputs activation held) :
    p.weights.size = (inputs, outputs) :=
  Prod.ext h.inputs h.outputs

theorem IsAt.length_bias (h : p.IsAt inputs outputs activation held) : p.bias.length = outputs :=
  p.length_bias.trans h.outputs

theorem IsAt.of_load (h : p.IsAt inputs outputs activation held)
    (hl : p.load candidate = .ok loaded) : loaded.IsAt inputs outputs activation candidate := by
  have halike := load_alike hl
  have hsize := halike.size.symm.trans h.size
  constructor
  · exact congrArg Prod.fst hsize
  · exact congrArg Prod.snd hsize
  · exact halike.activation.symm.trans h.activation
  · exact params_of_load hl

theorem refuses_of_ne (h : shapes ≠ layout inputs outputs) :
    ∃ fault, Refuses inputs outputs shapes fault := by
  by_cases hcount : shapes.length = 2
  · obtain ⟨weights, bias, rfl⟩ := List.length_eq_two.mp hcount
    by_cases hrank : weights.length ≠ 2 ∨ bias.length ≠ 1
    · exact ⟨_, .rank hrank⟩
    · rw [not_or, Decidable.not_not, Decidable.not_not] at hrank
      obtain ⟨height, width, rfl⟩ := List.length_eq_two.mp hrank.1
      obtain ⟨n, rfl⟩ := List.length_eq_one_iff.mp hrank.2
      exact ⟨_, .sizes h⟩
  · exact ⟨_, .count hcount⟩

theorem IsAt.misfit?_of_refuses (h : p.IsAt inputs outputs activation held)
    (hr : Refuses inputs outputs shapes fault) : p.misfit? shapes = some fault := by
  cases hr with
  | count hcount =>
    unfold misfit?
    split
    · exact absurd rfl hcount
    · rfl
  | @rank weights bias hrank =>
    show p.shapesMisfit? weights bias = some _
    unfold shapesMisfit?
    split
    · simp at hrank
    · rfl
  | @sizes height width n hsizes =>
    have hfit : ¬((height, width) = (inputs, outputs) ∧ n = outputs) := by
      rintro ⟨he, rfl⟩
      cases he
      exact hsizes rfl
    simp only [misfit?, shapesMisfit?, h.size, h.length_bias, if_neg hfit]

theorem IsAt.misfit?_layout (h : p.IsAt inputs outputs activation held) :
    p.misfit? (layout inputs outputs) = none := by
  simp only [misfit?, layout, shapesMisfit?, h.size, h.length_bias, and_self, if_true]

theorem IsAt.call_fitting (h : p.IsAt inputs outputs activation held)
    (hc : candidate.layout = layout inputs outputs) :
    ∃ loaded, p.call (.load candidate) = (loaded, .ok none) ∧
      loaded.IsAt inputs outputs activation candidate := by
  have hload := p.load_of_layout candidate
  rw [hc, h.misfit?_layout] at hload
  obtain ⟨w, b, loaded, -, hok, -⟩ := hload
  exact ⟨loaded, by rw [call, hok], h.of_load hok⟩

theorem IsAt.call_refused (h : p.IsAt inputs outputs activation held)
    (hr : Refuses inputs outputs candidate.layout fault) :
    p.call (.load candidate) = (p, .error fault) := by
  have hload := p.load_of_layout candidate
  rw [h.misfit?_of_refuses hr] at hload
  rw [call, hload]

theorem IsAt.call_load_ok_iff (h : p.IsAt inputs outputs activation held) :
    (p.call (.load candidate)).2 = .ok none ↔ candidate.layout = layout inputs outputs := by
  constructor
  · intro hok
    by_contra hne
    obtain ⟨fault, hr⟩ := refuses_of_ne hne
    rw [h.call_refused hr] at hok
    cases hok
  · intro hc
    obtain ⟨loaded, hcall, -⟩ := h.call_fitting hc
    rw [hcall]

theorem IsAt.call_load_error_iff (h : p.IsAt inputs outputs activation held) :
    p.call (.load candidate) = (p, .error fault) ↔
      Refuses inputs outputs candidate.layout fault := by
  constructor
  · intro herror
    have hne : candidate.layout ≠ layout inputs outputs := by
      intro hc
      rw [← h.call_load_ok_iff, herror] at hc
      cases hc
    obtain ⟨other, hr⟩ := refuses_of_ne hne
    rw [h.call_refused hr] at herror
    cases herror
    exact hr
  · exact h.call_refused

section Forward

variable {batch top bottom : Matrix Single}

theorem forward_error (h : batch.width ≠ p.inputs) :
    p.forward batch = .error (.probe (.inputWidth batch.width p.inputs)) :=
  if_neg h

theorem forward_stack (h : bottom.width = top.width) (hw : top.width = p.inputs) :
    ∃ (a b : Matrix Single) (hab : b.width = a.width), p.forward top = .ok a ∧
      p.forward bottom = .ok b ∧ p.forward (top.stack bottom h) = .ok (a.stack b hab) := by
  obtain ⟨a, ha, hasize, harows⟩ := forward_of_width hw
  obtain ⟨b, hb, hbsize, hbrows⟩ := forward_of_width (h.trans hw)
  have hw' : (top.stack bottom h).width = p.inputs := hw
  obtain ⟨c, hc, hcsize, hcrows⟩ := forward_of_width hw'
  have hawidth : a.width = p.outputs := congrArg Prod.snd hasize
  have hbwidth : b.width = p.outputs := congrArg Prod.snd hbsize
  have hcwidth : c.width = p.outputs := congrArg Prod.snd hcsize
  refine ⟨a, b, hbwidth.trans hawidth.symm, ha, hb, ?_⟩
  rw [hc, Except.ok.injEq]
  apply Matrix.eq_of_rows
  · exact hcwidth.trans hawidth.symm
  · simp only [hcrows, harows, hbrows, Matrix.stack, List.map_append]

end Forward

def after (p : Probe) (calls : List Call) : Probe := calls.foldl (fun q c => (q.call c).1) p

def Call.model? (shapes : List Shape) : Call → Option (Params Single)
  | .load candidate => if candidate.layout = shapes then some candidate else none
  | .forward _ => none

def lastModel? (shapes : List Shape) (calls : List Call) : Option (Params Single) :=
  (calls.filterMap (Call.model? shapes)).getLast?

theorem IsAt.call (h : p.IsAt inputs outputs activation held) (c : Call) :
    (p.call c).1.IsAt inputs outputs activation
      ((c.model? (layout inputs outputs)).getD held) := by
  cases c with
  | forward batch => exact h
  | load candidate =>
    by_cases hc : candidate.layout = layout inputs outputs
    · obtain ⟨loaded, hcall, hloaded⟩ := h.call_fitting hc
      rw [hcall, Call.model?, if_pos hc]
      exact hloaded
    · obtain ⟨fault, hr⟩ := refuses_of_ne hc
      rw [h.call_refused hr, Call.model?, if_neg hc]
      exact h

theorem IsAt.after (h : p.IsAt inputs outputs activation held) (calls : List Call) :
    (p.after calls).IsAt inputs outputs activation
      ((lastModel? (layout inputs outputs) calls).getD held) := by
  induction calls generalizing p held with
  | nil => exact h
  | cons c calls ih =>
    have hrest := ih (h.call c)
    rw [lastModel?, List.filterMap_cons]
    cases hm : c.model? (layout inputs outputs) with
    | none =>
      rw [hm] at hrest
      exact hrest
    | some model =>
      rw [hm] at hrest
      rw [List.getLast?_cons]
      exact hrest

theorem zeros_isAt (inputs outputs : Nat) (activation : Activation) :
    (zeros inputs outputs activation).IsAt inputs outputs activation
      (zeros inputs outputs activation).params := by
  constructor
  · simp [zeros, Probe.inputs, Matrix.height, Matrix.constant]
  · rfl
  · rfl
  · rfl

theorem params_zeros (inputs outputs : Nat) (activation : Activation) :
    (zeros inputs outputs activation).params.layout = layout inputs outputs ∧
      ∀ x ∈ (zeros inputs outputs activation).params.flatten, x = .zero := by
  constructor
  · simp [params, zeros, Params.layout, layout, Tensor.ofMatrix, Tensor.vector, Matrix.constant,
      Matrix.height]
  · intro x hx
    simp only [params, zeros, Params.flatten, Tensor.ofMatrix, Tensor.vector, Matrix.entries,
      Matrix.constant, List.flatMap_cons, List.flatMap_nil, List.append_nil, List.mem_append,
      List.mem_flatten, List.mem_replicate] at hx
    rcases hx with ⟨row, ⟨-, rfl⟩, hx⟩ | ⟨-, rfl⟩
    · exact List.eq_of_mem_replicate hx
    · rfl

/-- How a probe of the given sizes answers its calls. A load that is carried out by assignments ends
as its call does, with the same parts in place. -/
structure Answers (p : Probe) (inputs outputs : Nat) (activation : Activation) : Prop where
  takes : ∀ candidate, candidate.layout = layout inputs outputs →
    ∃ loaded, p.call (.load candidate) = (loaded, .ok none) ∧
      loaded.IsAt inputs outputs activation candidate
  takes_iff : ∀ candidate,
    (p.call (.load candidate)).2 = .ok none ↔ candidate.layout = layout inputs outputs
  refuses_iff : ∀ candidate fault, p.call (.load candidate) = (p, .error fault) ↔
    Refuses inputs outputs candidate.layout fault
  assigns : ∀ candidate, (store candidate).run p.slots =
    match p.call (.load candidate) with
    | (q, .ok _) => .ok () q.slots
    | (q, .error fault) => .error fault q.slots
  runs : ∀ batch : Matrix Single, batch.width = inputs →
    ∃ output, p.call (.forward batch) = (p, .ok (some output)) ∧
      output.size = (batch.height, outputs) ∧ output.rows = batch.rows.map p.forwardRow
  stops : ∀ batch : Matrix Single, batch.width ≠ inputs →
    p.call (.forward batch) = (p, .error (.probe (.inputWidth batch.width inputs)))
  stacking : ∀ (top bottom : Matrix Single) (h : bottom.width = top.width), top.width = inputs →
    ∃ (a b : Matrix Single) (hab : b.width = a.width), p.forward top = .ok a ∧
      p.forward bottom = .ok b ∧ p.forward (top.stack bottom h) = .ok (a.stack b hab)

theorem IsAt.answers (h : p.IsAt inputs outputs activation held) :
    p.Answers inputs outputs activation where
  takes _ := h.call_fitting
  takes_iff _ := h.call_load_ok_iff
  refuses_iff _ _ := h.call_load_error_iff
  assigns := p.run_store_of_call
  runs batch hw := by
    obtain ⟨output, hok, hsize, hrows⟩ := forward_of_width (hw.trans h.inputs.symm)
    exact ⟨output, by rw [Probe.call, hok]; rfl, hsize.trans (by rw [h.outputs]), hrows⟩
  stops batch hw := by
    rw [Probe.call, forward_error (h.inputs.symm ▸ hw), h.inputs]
    rfl
  stacking _ _ heq hw := forward_stack heq (hw.trans h.inputs.symm)

/-- After any calls a probe has the sizes and the activation that it was made with, and holds the
last model of its layout that it was called with, or zeros. It takes the models of its layout and
no others, and a refused one changes nothing. It runs batches of its width, row by row. -/
theorem holds_last_model (inputs outputs : Nat) (activation : Activation) (calls : List Call) :
    (zeros inputs outputs activation).params.layout = layout inputs outputs ∧
      (∀ x ∈ (zeros inputs outputs activation).params.flatten, x = .zero) ∧
      ∃ p, (zeros inputs outputs activation).after calls = p ∧
        p.IsAt inputs outputs activation
          ((lastModel? (layout inputs outputs) calls).getD
            (zeros inputs outputs activation).params) ∧
        p.Answers inputs outputs activation := by
  obtain ⟨hlayout, hzero⟩ := params_zeros inputs outputs activation
  have hstart := zeros_isAt inputs outputs activation
  have hlast := hstart.after calls
  exact ⟨hlayout, hzero, _, rfl, hlast, hlast.answers⟩

def weighted : Params Single :=
  ⟨[.ofMatrix (.constant 1 2 (.ofNat 3)), .vector [.ofNat 1, .zero]]⟩

theorem holds_last_model_weighted :
    ∃ p, (zeros 1 2 .softmax).after [.load weighted, .load ⟨weighted.tensors.take 1⟩,
        .forward (.constant 4 2 .zero)] = p ∧ p.params = weighted ∧
      p.call (.load ⟨weighted.tensors.take 1⟩) = (p, .error (.probe (.tensorCount 1))) ∧
      p.call (.forward (.constant 4 2 .zero)) = (p, .error (.probe (.inputWidth 2 1))) := by
  obtain ⟨-, -, p, hp, hat, hanswers⟩ := holds_last_model 1 2 .softmax
    [.load weighted, .load ⟨weighted.tensors.take 1⟩, .forward (.constant 4 2 .zero)]
  refine ⟨p, hp, ?_, ?_, ?_⟩
  · exact hat.params.trans (by decide)
  · exact (hanswers.refuses_iff _ _).mpr (.count (by decide))
  · exact hanswers.stops _ (by decide)

end Probe

end Federation
