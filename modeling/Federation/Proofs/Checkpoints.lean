import Federation.Document.State
import Federation.Proofs.Distances
import Federation.Proofs.Json.Records
import Federation.Proofs.Results

/-!
# Checkpoints

A checkpoint of finite numbers restores the state that was written, and every other checkpoint is
refused. What a restored state looks like is known for any text at all: model and momentum have one
layout and tensors that can be addressed, and no entry is invalid. But an entry can be infinite,
where the text holds a number past the finite ones, and such a state cannot be written again.
-/

set_option autoImplicit false

namespace Federation

open Json Json.Value

namespace Tensor

theorem volume_filter_pos (shape : Shape) : 0 < Shape.volume (shape.filter (· ≠ 0)) := by
  induction shape with
  | nil => decide
  | cons n shape ih =>
    by_cases h : n = 0
    · simpa [h] using ih
    · have he : (n :: shape).filter (· ≠ 0) = n :: shape.filter (· ≠ 0) := by simp [h]
      rw [he]
      exact Nat.mul_pos (Nat.pos_of_ne_zero h) ih

theorem dim_le_volume {shape : Shape} {n : Nat} (h : n ∈ shape) :
    n ≤ Shape.volume (shape.filter (· ≠ 0)) := by
  induction shape with
  | nil => cases h
  | cons m shape ih =>
    have hpos := volume_filter_pos shape
    by_cases hm : m = 0
    · have he : (m :: shape).filter (· ≠ 0) = shape.filter (· ≠ 0) := by simp [hm]
      rw [he]
      rcases List.mem_cons.mp h with rfl | h
      · omega
      · exact ih h
    · have he : (m :: shape).filter (· ≠ 0) = m :: shape.filter (· ≠ 0) := by simp [hm]
      rw [he]
      show n ≤ m * Shape.volume (shape.filter (· ≠ 0))
      rcases List.mem_cons.mp h with rfl | h
      · exact Nat.le_mul_of_pos_right _ hpos
      · exact le_trans (ih h) (Nat.le_mul_of_pos_left _ (Nat.pos_of_ne_zero hm))

theorem dim_lt_bound {shape : Shape} (h : isAddressable shape = true) :
    ∀ n ∈ shape, n < Count.bound := by
  intro n hn
  have hle := dim_le_volume hn
  have hlt : Shape.volume (shape.filter (· ≠ 0)) < Count.bound / 2 := of_decide_eq_true h
  omega

variable {t : Tensor Single}

theorem ofParts?_self (h : isAddressable t.shape = true) : ofParts? t.shape t.entries = some t := by
  rw [ofParts?, dif_pos t.length_entries, if_pos h]

theorem ofValue?_toValue (h : isAddressable t.shape = true) :
    ofValue? t.toValue = if t.entries.all Binary.isFinite then some t else none := by
  have hv : latest? readVersion? "v" [(some "v", ofNat version), (some "dim", ofNats t.shape),
      (some "data", array (t.entries.map ofSingle))] = some () := rfl
  have hd : latest? readShape? "dim" [(some "v", ofNat version), (some "dim", ofNats t.shape),
      (some "data", array (t.entries.map ofSingle))] = some t.shape := by
    have hs : readShape? (ofNats t.shape) = some t.shape := toNats?_ofNats (dim_lt_bound h)
    simp [latest?, named, hs]
  have he : latest? readEntries? "data" [(some "v", ofNat version), (some "dim", ofNats t.shape),
      (some "data", array (t.entries.map ofSingle))]
        = if t.entries.all Binary.isFinite then some t.entries else none := by
    have hs : readEntries? (array (t.entries.map ofSingle)) = _ := toSingles?_ofSingles t.entries
    by_cases hf : t.entries.all Binary.isFinite = true
    · rw [if_pos hf] at hs ⊢
      simp [latest?, named, hs]
    · rw [if_neg hf] at hs ⊢
      simp [latest?, named, hs]
  have hall : [(some "v", ofNat version), (some "dim", ofNats t.shape),
      (some "data", array (t.entries.map ofSingle))].all (fun m => isKnownName m.1) = true := rfl
  have ht : t.toValue = object [(some "v", ofNat version), (some "dim", ofNats t.shape),
      (some "data", array (t.entries.map ofSingle))] := rfl
  rw [ht, ofValue?, if_pos hall, hv, hd, he]
  by_cases hf : t.entries.all Binary.isFinite = true
  · simp [hf, ofParts?_self h]
  · simp [hf]

theorem ofParts?_some {shape : Shape} {entries : List Single}
    (h : ofParts? shape entries = some t) :
    t.shape = shape ∧ t.entries = entries ∧ isAddressable shape = true := by
  unfold ofParts? at h
  split at h
  · split at h
    · cases h
      exact ⟨rfl, rfl, ‹_›⟩
    · cases h
  · cases h

theorem latest?_some {α : Type} {read : Value → Option α} {name : String}
    {members : List (Text × Value)} {a : α} (h : latest? read name members = some a) :
    ∃ v, read v = some a := by
  obtain ⟨as, hm, hl⟩ := Option.bind_eq_some_iff.mp h
  obtain ⟨v, -, hv⟩ := exists_of_mapM hm a (List.mem_of_getLast? hl)
  exact ⟨v, hv⟩

theorem readEntries?_isNaN {v : Value} {xs : List Single} (h : readEntries? v = some xs) :
    ∀ x ∈ xs, x.isNaN = false := by
  intro x hx
  obtain ⟨item, hi⟩ := exists_of_toList? h x hx
  cases item with
  | number n => exact Number.toSingle?_isNaN hi
  | _ => cases hi

theorem ofValue?_some {v : Value} (h : ofValue? v = some t) :
    isAddressable t.shape = true ∧ ∀ x ∈ t.entries, x.isNaN = false := by
  have hparts : ∃ shape entries w, readEntries? w = some entries ∧
      ofParts? shape entries = some t := by
    unfold ofValue? at h
    split at h
    · split at h
      · obtain ⟨-, -, h⟩ := Option.bind_eq_some_iff.mp h
        obtain ⟨shape, -, h⟩ := Option.bind_eq_some_iff.mp h
        obtain ⟨entries, he, h⟩ := Option.bind_eq_some_iff.mp h
        obtain ⟨w, hw⟩ := latest?_some he
        exact ⟨shape, entries, w, hw, h⟩
      · cases h
    · obtain ⟨-, -, h⟩ := Option.bind_eq_some_iff.mp h
      obtain ⟨shape, -, h⟩ := Option.bind_eq_some_iff.mp h
      obtain ⟨entries, he, h⟩ := Option.bind_eq_some_iff.mp h
      exact ⟨shape, entries, _, he, h⟩
    · cases h
  obtain ⟨shape, entries, w, hw, hp⟩ := hparts
  obtain ⟨rfl, rfl, ha⟩ := ofParts?_some hp
  exact ⟨ha, readEntries?_isNaN hw⟩

theorem isTextual_toValue (t : Tensor Single) : t.toValue.IsTextual := by
  refine isTextual_record fun f hf => ?_
  simp only [List.mem_cons, List.not_mem_nil, or_false] at hf
  rcases hf with rfl | rfl | rfl
  · exact isTextual_ofNat _
  · exact isTextual_ofNats _
  · exact isTextual_array_map fun x _ => isTextual_ofSingle x

end Tensor

namespace Params

/-- The entries that each tensor would have, were no dimension zero, can be addressed. -/
def IsAddressable (p : Params Single) : Prop :=
  ∀ t ∈ p.tensors, Tensor.isAddressable t.shape = true

instance (p : Params Single) : Decidable p.IsAddressable :=
  inferInstanceAs (Decidable (∀ t ∈ p.tensors, Tensor.isAddressable t.shape = true))

variable {p : Params Single}

theorem ofValue?_toValue (h : p.IsAddressable) :
    ofValue? p.toValue = if p.isFinite then some p else none := by
  by_cases hf : p.isFinite = true
  · have hm : (p.tensors.map Tensor.toValue).mapM Tensor.ofValue? = some (p.tensors.map id) :=
      mapM_map_some fun t ht => by
        rw [Tensor.ofValue?_toValue (h t ht),
          if_pos (List.all_eq_true.mpr (isFinite_iff.mp hf t ht))]
        rfl
    rw [List.map_id] at hm
    rw [if_pos hf, ofValue?, toValue, toList?, hm]
    rfl
  · have hn : ∃ t ∈ p.tensors, ¬t.entries.all Binary.isFinite = true := by
      by_contra hc
      push Not at hc
      exact hf (isFinite_iff.mpr fun t ht => List.all_eq_true.mp (hc t ht))
    obtain ⟨t, ht, hx⟩ := hn
    have hnone : Tensor.ofValue? t.toValue = none := by
      rw [Tensor.ofValue?_toValue (h t ht), if_neg hx]
    have hm := mapM_eq_none (List.mem_map_of_mem ht) hnone
    rw [if_neg hf, ofValue?, toValue, toList?, hm]
    rfl

theorem ofValue?_some {v : Value} (h : ofValue? v = some p) :
    p.IsAddressable ∧ ∀ x ∈ p.flatten, x.isNaN = false := by
  obtain ⟨ts, ht, rfl⟩ := Option.map_eq_some_iff.mp h
  refine ⟨fun t hm => ?_, fun x hx => ?_⟩
  · obtain ⟨item, hi⟩ := exists_of_toList? ht t hm
    exact (Tensor.ofValue?_some hi).1
  · obtain ⟨t, hm, hx⟩ := List.mem_flatMap.mp hx
    obtain ⟨item, hi⟩ := exists_of_toList? ht t hm
    exact (Tensor.ofValue?_some hi).2 x hx

theorem isTextual_toValue (p : Params Single) : p.toValue.IsTextual :=
  isTextual_array_map fun t _ => t.isTextual_toValue

end Params

namespace State

variable {s : State Single}

theorem isTextual_toValue (s : State Single) : s.toValue.IsTextual := by
  refine isTextual_record fun f hf => ?_
  simp only [List.mem_cons, List.not_mem_nil, or_false] at hf
  rcases hf with rfl | rfl
  · exact s.model.isTextual_toValue
  · exact s.momentum.isTextual_toValue

theorem read_toText (s : State Single) :
    Document.read parts? s.toText = match parts? s.toValue with
      | some parts => .ok parts
      | none => .error .malformedDocument := by
  rw [Document.read, toText, parse?_render Layout.compact_isBlank s.isTextual_toValue,
    Option.bind_some]
  cases parts? s.toValue <;> rfl

theorem parts?_toValue (hm : s.model.IsAddressable) (hp : s.momentum.IsAddressable) :
    parts? s.toValue
      = if s.model.isFinite = true ∧ s.momentum.isFinite = true then some (s.model, s.momentum)
        else none := by
  have hf : s.toValue.fields? ["global", "momentum"]
      = some [some s.model.toValue, some s.momentum.toValue] :=
    fields?_record (show ([("global", s.model.toValue),
      ("momentum", s.momentum.toValue)].map Prod.fst).Nodup by simp)
  rw [parts?, hf]
  simp only [Option.bind_eq_bind, Option.bind_some, required?, Params.ofValue?_toValue hm,
    Params.ofValue?_toValue hp]
  by_cases h : s.model.isFinite = true <;> by_cases k : s.momentum.isFinite = true <;> simp [h, k]

theorem ofText_toText (s : State Single) (hm : s.model.IsAddressable)
    (hp : s.momentum.IsAddressable) :
    ofText s.toText =
      if s.model.isFinite = true ∧ s.momentum.isFinite = true then
        if s.model.layout = s.momentum.layout then .ok s else .error (.shape .momentum)
      else .error .malformedDocument := by
  rw [ofText, read_toText, parts?_toValue hm hp]
  by_cases h : s.model.isFinite = true ∧ s.momentum.isFinite = true
  · rw [if_pos h, if_pos h]
    rfl
  · rw [if_neg h, if_neg h]
    rfl

theorem parts?_some {v : Value} {model momentum : Params Single}
    (h : parts? v = some (model, momentum)) :
    (∃ w, Params.ofValue? w = some model) ∧ ∃ w, Params.ofValue? w = some momentum := by
  obtain ⟨fields, -, h⟩ := Option.bind_eq_some_iff.mp h
  split at h
  · obtain ⟨p, hp, h⟩ := Option.bind_eq_some_iff.mp h
    obtain ⟨q, hq, h⟩ := Option.bind_eq_some_iff.mp h
    cases h
    obtain ⟨w, -, hw⟩ := Option.bind_eq_some_iff.mp hp
    obtain ⟨u, -, hu⟩ := Option.bind_eq_some_iff.mp hq
    exact ⟨⟨w, hw⟩, u, hu⟩
  · cases h

theorem ofText_ok {text : String} (h : ofText text = .ok s) :
    s.model.layout = s.momentum.layout ∧ (∃ w, Params.ofValue? w = some s.model) ∧
      ∃ w, Params.ofValue? w = some s.momentum := by
  obtain ⟨⟨model, momentum⟩, hr, h⟩ := except_bind_ok_iff.mp h
  obtain ⟨v, -, hv⟩ := Document.read_ok_iff.mp hr
  simp only [resume] at h
  split at h
  · cases h
    exact ⟨‹_›, parts?_some hv⟩
  · cases h

/-- A checkpoint restores the state that was written, bit for bit, exactly if model and momentum
are finite and have one layout. Entries that are not finite make it malformed, whatever the layouts
are; of finite parameters only two layouts are refused. -/
theorem restores_iff (s : State Single) (hm : s.model.IsAddressable)
    (hp : s.momentum.IsAddressable) :
    (∀ s', ofText s.toText = .ok s' ↔ s' = s ∧ s.model.layout = s.momentum.layout ∧
      s.model.isFinite = true ∧ s.momentum.isFinite = true) ∧
    (ofText s.toText = .error .malformedDocument ↔
      ¬(s.model.isFinite = true ∧ s.momentum.isFinite = true)) ∧
    (ofText s.toText = .error (.shape .momentum) ↔ s.model.layout ≠ s.momentum.layout ∧
      s.model.isFinite = true ∧ s.momentum.isFinite = true) := by
  rw [ofText_toText s hm hp]
  by_cases hf : s.model.isFinite = true ∧ s.momentum.isFinite = true
  · by_cases hl : s.model.layout = s.momentum.layout
    · simp [hf, hl, eq_comm]
    · simp [hf, hl]
  · simp [hf]

theorem restores_edges :
    let p : Params Single :=
      ⟨[⟨[], [.negZero], rfl⟩, ⟨[0, 3], [], rfl⟩, .vector [.atRank false 1, .atRank true 1]]⟩
    p.IsAddressable ∧ ofText (State.toText ⟨p, p⟩) = .ok ⟨p, p⟩ :=
  ⟨by decide, ((restores_iff _ (by decide) (by decide)).1 _).mpr ⟨rfl, rfl, by decide, by decide⟩⟩

/-- What a text restores, in whatever notation it is written, has one layout, can be addressed and
holds no invalid number. It is restored again from its own checkpoint exactly if it is finite. -/
theorem restored_is_written (text : String) (s : State Single) (h : ofText text = .ok s) :
    s.model.layout = s.momentum.layout ∧ s.model.IsAddressable ∧ s.momentum.IsAddressable ∧
      (∀ x ∈ s.model.flatten ++ s.momentum.flatten, x.isNaN = false) ∧
      ofText s.toText =
        if s.model.isFinite = true ∧ s.momentum.isFinite = true then .ok s
        else .error .malformedDocument := by
  obtain ⟨hl, ⟨v, hv⟩, w, hw⟩ := ofText_ok h
  obtain ⟨hm, hmn⟩ := Params.ofValue?_some hv
  obtain ⟨hp, hpn⟩ := Params.ofValue?_some hw
  refine ⟨hl, hm, hp, fun x hx => ?_, ?_⟩
  · rcases List.mem_append.mp hx with hx | hx
    · exact hmn x hx
    · exact hpn x hx
  · rw [ofText_toText s hm hp, if_pos hl]

theorem restored_is_written_reordered :
    ofText "\x7b\"momentum\":[[1,[1],[0]]],\"note\":null,\"global\":[[1,[1],[3]]]\x7d"
        = .ok ⟨.vector [.ofRatio false 3 1], .vector [.zero]⟩ ∧
      ofText (State.toText ⟨.vector [.ofRatio false 3 1], .vector [.zero]⟩)
        = .ok ⟨.vector [.ofRatio false 3 1], .vector [.zero]⟩ := by
  have h : ofText "\x7b\"momentum\":[[1,[1],[0]]],\"note\":null,\"global\":[[1,[1],[3]]]\x7d"
      = .ok ⟨.vector [.ofRatio false 3 1], .vector [.zero]⟩ := by decide
  have hf : (Params.vector [Binary.ofRatio false 3 1] : Params Single).isFinite = true ∧
      (Params.vector [Binary.zero] : Params Single).isFinite = true := by decide
  have hw := (restored_is_written _ _ h).2.2.2.2
  rw [if_pos hf] at hw
  exact ⟨h, hw⟩

/-- A number past the finite ones of single precision is restored as infinity, which no checkpoint
can hold. -/
theorem restored_infinity :
    ofText "[[[1,[1],[1e39]]],[[1,[1],[0]]]]" = .ok ⟨.vector [.infinity false], .vector [.zero]⟩ ∧
      (Params.vector [.infinity false]).isFinite = false ∧
      ofText (State.toText ⟨.vector [.infinity false], .vector [.zero]⟩)
        = .error .malformedDocument := by
  decide +kernel

end State

end Federation
