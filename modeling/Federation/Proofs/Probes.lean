import Federation.Proofs.Replay
import Federation.Proofs.Rounds

/-!
# What a probe takes

A probe takes candidates of one layout, that of its own parameters, and batches of one width. So
either no model of a round can be run or all of them can, whatever their entries are, and the output
of a model does not depend on the models before it.
-/

set_option autoImplicit false

namespace Federation

theorem Matrix.flatten_cut {α : Type} {width height : Nat} {entries : List α}
    (h : entries.length = height * width) : (cut width height entries).flatten = entries := by
  induction height generalizing entries with
  | zero =>
    rw [Nat.zero_mul, List.length_eq_zero_iff] at h
    rw [h]
    rfl
  | succ height ih =>
    rw [Nat.succ_mul] at h
    have hd : (entries.drop width).length = height * width := by
      rw [List.length_drop]
      omega
    rw [cut, List.flatten_cons, ih hd, List.take_append_drop]

namespace Tensor

variable {t : Tensor Single} {height width n : Nat}

theorem matrix?_of_shape (h : t.shape = [height, width]) :
    ∃ m, t.matrix? = some m ∧ m.size = (height, width) ∧ m.entries = t.entries := by
  obtain ⟨shape, entries, he⟩ := t
  cases h
  exact ⟨_, rfl, Prod.ext (Matrix.length_cut _ _ _) rfl,
    Matrix.flatten_cut (by simpa [Shape.volume] using he)⟩

theorem matrix?_eq_none (h : ∀ height width, t.shape ≠ [height, width]) : t.matrix? = none := by
  unfold matrix?
  split
  · rename_i hs
    exact absurd hs (h _ _)
  · rfl

theorem vector?_of_shape (h : t.shape = [n]) : t.vector? = some t.entries := by
  simp [vector?, h]

theorem vector?_eq_none (h : ∀ n, t.shape ≠ [n]) : t.vector? = none := by
  unfold vector?
  split
  · rename_i hs
    exact absurd hs (h _)
  · rfl

end Tensor

def Fault.isRefusal : Fault → Bool
  | probe _ => true
  | shape .rank => true
  | _ => false

namespace Probe

def shapesMisfit? (p : Probe) : Shape → Shape → Option Fault
  | [height, width], [n] =>
    if (height, width) = p.weights.size ∧ n = p.bias.length then none
    else some (.probe (.sizes p.weights.size p.bias.length (height, width) n))
  | _, _ => some (.shape .rank)

def misfit? (p : Probe) : List Shape → Option Fault
  | [weights, bias] => p.shapesMisfit? weights bias
  | layout => some (.probe (.tensorCount layout.length))

/-- Why models of a layout cannot be run on a batch. -/
def obstacle? (p : Probe) (batch : Matrix Single) (layout : List Shape) : Option Fault :=
  p.misfit? layout <|>
    if batch.width = p.inputs then none else some (.probe (.inputWidth batch.width p.inputs))

def output? (p : Probe) (batch : Matrix Single) (candidate : Params Single) :
    Option (Matrix Single) := do
  let loaded ← (p.load candidate).toOption
  (loaded.forward batch).toOption

/-- The probe has been loaded with a tensor of weights and one of the bias. -/
structure Holds (p : Probe) (w b : Tensor Single) : Prop where
  weights : p.weights.entries = w.entries
  bias : p.bias = b.entries

variable {p : Probe} {candidate : Params Single} {batch : Matrix Single} {layout : List Shape}
  {fault : Fault}

theorem shapesMisfit?_isRefusal {weights bias : Shape}
    (h : p.shapesMisfit? weights bias = some fault) : fault.isRefusal = true := by
  unfold shapesMisfit? at h
  split at h
  · split at h
    · cases h
    · cases h
      rfl
  · cases h
    rfl

theorem obstacle?_isRefusal (h : p.obstacle? batch layout = some fault) :
    fault.isRefusal = true := by
  unfold obstacle? at h
  cases hm : p.misfit? layout with
  | some first =>
    rw [hm] at h
    cases h
    unfold misfit? at hm
    split at hm
    · exact shapesMisfit?_isRefusal hm
    · cases hm
      rfl
  | none =>
    rw [hm] at h
    by_cases hw : batch.width = p.inputs
    · simp [hw] at h
    · simp only [hw, if_false] at h
      cases h
      rfl

theorem obstacle?_congr {q : Probe} {batch' : Matrix Single}
    (hs : p.weights.size = q.weights.size) (hb : batch.width = batch'.width)
    (layout : List Shape) : p.obstacle? batch layout = q.obstacle? batch' layout := by
  have hl : p.bias.length = q.bias.length := by
    rw [p.length_bias, q.length_bias]
    exact congrArg Prod.snd hs
  have hi : p.inputs = q.inputs := congrArg Prod.fst hs
  have hm : ∀ weights bias, p.shapesMisfit? weights bias = q.shapesMisfit? weights bias := by
    intro weights bias
    simp only [shapesMisfit?, hs, hl]
  simp only [obstacle?, misfit?, hm, hb, hi]

theorem load_of_rank {w b : Tensor Single} (h : w.matrix? = none ∨ b.vector? = none) :
    p.load ⟨[w, b]⟩ = .error (.shape .rank) := by
  unfold load
  rcases h with h | h
  · simp only [h]
  · cases hm : w.matrix? <;> simp only [hm, h]

theorem load_of_matrix {w b : Tensor Single} {weights : Matrix Single} {bias : List Single}
    (hw : w.matrix? = some weights) (hb : b.vector? = some bias) :
    if weights.size = p.weights.size ∧ bias.length = p.bias.length then
      ∃ loaded, p.load ⟨[w, b]⟩ = .ok loaded ∧ loaded.weights = weights ∧ loaded.bias = bias
    else p.load ⟨[w, b]⟩ = .error
      (.probe (.sizes p.weights.size p.bias.length weights.size bias.length)) := by
  unfold load
  simp only [hw, hb]
  split
  · exact ⟨_, rfl, rfl, rfl⟩
  · rfl

theorem load_pair (p : Probe) (w b : Tensor Single) :
    match p.shapesMisfit? w.shape b.shape with
    | some fault => p.load ⟨[w, b]⟩ = .error fault
    | none => ∃ loaded, p.load ⟨[w, b]⟩ = .ok loaded ∧ loaded.Holds w b := by
  by_cases hr : ∃ height width n, w.shape = [height, width] ∧ b.shape = [n]
  · obtain ⟨height, width, n, hw, hb⟩ := hr
    obtain ⟨m, hm, hsize, hentries⟩ := Tensor.matrix?_of_shape hw
    have hn : b.entries.length = n := by simp [b.length_entries, hb, Shape.volume]
    have hl := load_of_matrix (p := p) hm (Tensor.vector?_of_shape hb)
    rw [hsize, hn] at hl
    rw [hw, hb, shapesMisfit?]
    by_cases hfit : (height, width) = p.weights.size ∧ n = p.bias.length
    · rw [if_pos hfit] at hl ⊢
      obtain ⟨loaded, hok, hweights, hbias⟩ := hl
      exact ⟨loaded, hok, by rw [hweights, hentries], hbias⟩
    · rw [if_neg hfit] at hl ⊢
      exact hl
  · have hs : p.shapesMisfit? w.shape b.shape = some (.shape .rank) := by
      unfold shapesMisfit?
      split
      · rename_i height width n hw hb
        exact absurd ⟨height, width, n, hw, hb⟩ hr
      · rfl
    rw [hs]
    apply load_of_rank
    by_cases hw : ∃ height width, w.shape = [height, width]
    · obtain ⟨height, width, hw⟩ := hw
      exact Or.inr (Tensor.vector?_eq_none fun n hb => hr ⟨height, width, n, hw, hb⟩)
    · exact Or.inl (Tensor.matrix?_eq_none fun height width h => hw ⟨height, width, h⟩)

theorem load_of_layout (p : Probe) (candidate : Params Single) :
    match p.misfit? candidate.layout with
    | some fault => p.load candidate = .error fault
    | none => ∃ w b loaded, candidate.tensors = [w, b] ∧ p.load candidate = .ok loaded ∧
        loaded.Holds w b := by
  obtain ⟨tensors⟩ := candidate
  match tensors with
  | [] => rfl
  | [_] => rfl
  | _ :: _ :: _ :: _ =>
    exact congrArg (Except.error ∘ Fault.probe ∘ ProbeFault.tensorCount) (by simp)
  | [w, b] =>
    have h := p.load_pair w b
    show match p.shapesMisfit? w.shape b.shape with | some _ => _ | none => _
    cases hs : p.shapesMisfit? w.shape b.shape with
    | some fault =>
      rw [hs] at h
      exact h
    | none =>
      rw [hs] at h
      obtain ⟨loaded, hl, hh⟩ := h
      exact ⟨w, b, loaded, rfl, hl, hh⟩

theorem forward_of_width (h : batch.width = p.inputs) :
    ∃ output, p.forward batch = .ok output ∧ output.size = (batch.height, p.outputs) ∧
      output.rows = batch.rows.map p.forwardRow :=
  ⟨_, if_pos h, Prod.ext (by simp [Matrix.size, Matrix.height, Matrix.mapRows]) rfl, rfl⟩

theorem output_of_no_obstacle (h : p.obstacle? batch candidate.layout = none) :
    ∃ w b loaded output, candidate.tensors = [w, b] ∧ p.load candidate = .ok loaded ∧
      loaded.Holds w b ∧ loaded.forward batch = .ok output ∧
      output.size = (batch.height, p.outputs) ∧ output.rows = batch.rows.map loaded.forwardRow := by
  have hl := p.load_of_layout candidate
  unfold obstacle? at h
  cases hm : p.misfit? candidate.layout with
  | some fault => simp [hm] at h
  | none =>
    rw [hm] at h hl
    obtain ⟨w, b, loaded, ht, hok, hh⟩ := hl
    have hsize := (load_alike hok).size
    have hw : batch.width = loaded.inputs := by
      by_contra hne
      have hp : batch.width ≠ p.inputs := fun he => hne (he.trans (congrArg Prod.fst hsize))
      simp [hp] at h
    obtain ⟨output, hf, ho, hr⟩ := forward_of_width hw
    have hwidth : p.outputs = loaded.outputs := congrArg Prod.snd hsize
    exact ⟨w, b, loaded, output, ht, hok, hh, hf, hwidth ▸ ho, hr⟩

theorem output?_eq {loaded : Probe} {output : Matrix Single} (hl : p.load candidate = .ok loaded)
    (hf : loaded.forward batch = .ok output) : p.output? batch candidate = some output := by
  simp only [output?, hl, Except.toOption, Option.bind_eq_bind, Option.bind_some, hf]

theorem outputsOf_of_obstacle {models : List (Params Single)} (hne : models ≠ [])
    (hl : ∀ m ∈ models, m.layout = layout) (h : p.obstacle? batch layout = some fault) :
    (outputsOf batch p models).2 = .error fault := by
  obtain ⟨m, rest, rfl⟩ := List.exists_cons_of_ne_nil hne
  have hm := hl m (by simp)
  have hload := p.load_of_layout m
  rw [hm] at hload
  unfold obstacle? at h
  cases hfit : p.misfit? layout with
  | some first =>
    rw [hfit] at h hload
    cases h
    simp only [outputsOf, hload]
  | none =>
    rw [hfit] at h hload
    obtain ⟨w, b, loaded, -, hok, -⟩ := hload
    have hi : loaded.inputs = p.inputs := congrArg Prod.fst (load_alike hok).size.symm
    have hw : batch.width ≠ p.inputs := fun he => by simp [he] at h
    have hf : loaded.forward batch = .error fault := by
      rw [forward, hi, if_neg hw]
      simpa [hw] using h
    simp only [outputsOf, hok, hf]

theorem outputsOf_of_no_obstacle {models : List (Params Single)}
    (hl : ∀ m ∈ models, m.layout = layout) (h : p.obstacle? batch layout = none) :
    ∃ outputs, (outputsOf batch p models).2 = .ok outputs ∧
      List.Forall₂ (fun m o => p.output? batch m = some o) models outputs := by
  induction models with
  | nil => exact ⟨[], rfl, .nil⟩
  | cons m rest ih =>
    obtain ⟨outputs, hrest, hall⟩ := ih fun n hn => hl n (by simp [hn])
    rw [← hl m (by simp)] at h
    obtain ⟨w, b, loaded, output, -, hok, -, hf, -, -⟩ := output_of_no_obstacle h
    rw [outputsOf_congr (load_alike hok)] at hrest
    exact ⟨output :: outputs,
      outputsOf_cons_ok_iff.mpr ⟨loaded, output, outputs, hok, hf, hrest, rfl⟩,
      .cons (output?_eq hok hf) hall⟩

end Probe

end Federation
