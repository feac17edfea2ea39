import Federation.Document.Config
import Federation.Proofs.Json.Doubles
import Federation.Proofs.Json.Records
import Federation.Proofs.Results

/-!
# Configurations

A checked configuration is restored from its document, bit for bit in the rate and in the momentum
coefficient. Only the threshold of the informative majority can come back as another number: its
literal has up to seventeen digits, and the reader rounds such a significand before it scales it.
A threshold with a short literal comes back as itself.
-/

set_option autoImplicit false

namespace Federation

open Json Json.Value

namespace Choice

/-- The choice after its threshold has been written and read back. -/
def reread? : Choice → Option Choice
  | .information threshold strict =>
    (Value.ofDouble threshold).toDouble?.map fun t => .information t strict
  | choice => some choice

theorem reread?_eq_self_iff {choice : Choice} :
    choice.reread? = some choice ↔ ∀ threshold strict, choice = .information threshold strict →
      (Value.ofDouble threshold).toDouble? = some threshold := by
  cases choice with
  | mean => simp [reread?]
  | central assumed => simp [reread?]
  | information threshold strict => simp [reread?]

theorem isTextual_toValue (choice : Choice) : choice.toValue.IsTextual := by
  cases choice with
  | mean => rfl
  | information threshold strict =>
    refine isTextual_record fun f hf => ?_
    obtain rfl := List.mem_singleton.mp hf
    refine isTextual_record fun f hf => ?_
    simp only [List.mem_cons, List.not_mem_nil, or_false] at hf
    rcases hf with rfl | rfl
    · exact isTextual_ofDouble threshold
    · trivial
  | central assumed =>
    refine isTextual_record fun f hf => ?_
    obtain rfl := List.mem_singleton.mp hf
    refine isTextual_record fun f hf => ?_
    obtain rfl := List.mem_singleton.mp hf
    cases assumed with
    | none => trivial
    | some f => exact isTextual_ofNat f

theorem toOption?_ofNat {n : Nat} (h : n < Count.bound) :
    toOption? toNat? (Value.ofNat n) = some (some n) := by
  have hn : toOption? toNat? (Value.ofNat n) = (Value.ofNat n).toNat?.map some := rfl
  rw [hn, toNat?_ofNat h]
  rfl

theorem ofValue?_toValue {choice : Choice} (h : Config.checkChoice choice = .ok ()) :
    ofValue? choice.toValue = choice.reread? := by
  cases choice with
  | mean => rfl
  | information threshold strict =>
    have hf : (record [("sigma_threshold", Value.ofDouble threshold),
        ("strict_statistics", .bool strict)]).fields? ["sigma_threshold", "strict_statistics"]
          = some [some (Value.ofDouble threshold), some (.bool strict)] :=
      fields?_record (show ([("sigma_threshold", Value.ofDouble threshold),
        ("strict_statistics", Value.bool strict)].map Prod.fst).Nodup by simp)
    have ho : ofValue? (toValue (.information threshold strict))
        = informationOfValue? (record [("sigma_threshold", Value.ofDouble threshold),
          ("strict_statistics", .bool strict)]) := rfl
    rw [ho, informationOfValue?, hf]
    simp only [Option.bind_eq_bind, Option.bind_some, optional?, reread?]
    cases (Value.ofDouble threshold).toDouble? <;> rfl
  | central assumed =>
    cases assumed with
    | none => rfl
    | some f =>
      have hle : f ≤ maxAssumed := by
        by_contra hc
        simp [Config.checkChoice, hc] at h
      have hlt : f < Count.bound := lt_of_le_of_lt hle (by decide)
      have ho : ofValue? (toValue (.central (some f)))
          = (toOption? toNat? (Value.ofNat f)).bind fun assumed => some (.central assumed) := rfl
      rw [ho, toOption?_ofNat hlt]
      rfl

end Choice

namespace Config

variable {c : Config}

theorem check_ok_iff : c.check = .ok () ↔ c.rate.isFinite = true ∧
    Binary.le Scalar.zero c.beta = true ∧ Binary.lt c.beta Scalar.one = true ∧
      checkChoice c.choice = .ok () := by
  unfold check
  cases c.rate.isFinite <;> cases Binary.le Scalar.zero c.beta <;>
    cases Binary.lt c.beta Scalar.one <;> cases checkChoice c.choice <;> simp [Except.mapError]

theorem isTextual_toValue (c : Config) : c.toValue.IsTextual := by
  refine isTextual_record fun f hf => ?_
  simp only [List.mem_cons, List.not_mem_nil, or_false] at hf
  rcases hf with rfl | rfl | rfl
  · exact c.choice.isTextual_toValue
  · exact isTextual_ofSingle _
  · exact isTextual_ofSingle _

theorem isFinite_of_unit {x : Single} (hlow : Binary.le Scalar.zero x = true)
    (hhigh : Binary.lt x Scalar.one = true) : x.isFinite = true := by
  obtain ⟨r, hr, -⟩ := Binary.hasRank_zero.of_le hlow
  have hone : (Scalar.one : Single).HasRank (Binary.rank (Scalar.one : Single)) :=
    Binary.hasRank_iff.mpr ⟨_, _, rfl, rfl, by simp⟩
  rw [hr.lt_eq hone, decide_eq_true_eq] at hhigh
  have htop := hone.le_top
  rw [hr.isFinite, decide_eq_true_eq]
  omega

theorem ofValue?_toValue (h : c.check = .ok ()) :
    ofValue? c.toValue = c.choice.reread?.map fun choice => { c with choice := choice } := by
  obtain ⟨hrate, hlow, hhigh, hchoice⟩ := check_ok_iff.mp h
  have hbeta := isFinite_of_unit hlow hhigh
  have hf : c.toValue.fields? ["method", "server_lr", "beta"]
      = some [some c.choice.toValue, some (Value.ofSingle c.rate), some (Value.ofSingle c.beta)] :=
    fields?_record (show ([("method", c.choice.toValue), ("server_lr", Value.ofSingle c.rate),
      ("beta", Value.ofSingle c.beta)].map Prod.fst).Nodup by simp)
  rw [ofValue?, hf]
  simp only [Option.bind_eq_bind, Option.bind_some, required?, optional?,
    Choice.ofValue?_toValue hchoice, toSingle?_ofSingle, hrate, hbeta, if_true]
  cases c.choice.reread? <;> rfl

theorem ofText_toText_ok_iff {d : Config} (h : c.check = .ok ()) :
    ofText c.toText = .ok d ↔ ∃ choice, c.choice.reread? = some choice ∧
      check { c with choice := choice } = .ok () ∧ d = { c with choice := choice } := by
  have hr : ∀ e, Document.read ofValue? c.toText = .ok e ↔ ∃ choice,
      c.choice.reread? = some choice ∧ e = { c with choice := choice } := by
    intro e
    rw [toText, Document.read_render_ok_iff Layout.pretty_isBlank c.isTextual_toValue,
      ofValue?_toValue h]
    cases c.choice.reread? with
    | none => simp
    | some choice => simp [eq_comm]
  unfold ofText
  simp only [except_bind_ok_iff, hr, pure, Except.pure, Except.ok.injEq]
  constructor
  · rintro ⟨_, ⟨choice, hc, rfl⟩, _, hk, rfl⟩
    exact ⟨choice, hc, hk, rfl⟩
  · rintro ⟨choice, hc, hk, rfl⟩
    exact ⟨_, ⟨choice, hc, rfl⟩, (), hk, rfl⟩

theorem ofText_toText_iff (h : c.check = .ok ()) :
    ofText c.toText = .ok c ↔ c.choice.reread? = some c.choice := by
  rw [ofText_toText_ok_iff h]
  constructor
  · rintro ⟨choice, hc, -, he⟩
    have hchoice : c.choice = choice := congrArg Config.choice he
    rwa [← hchoice] at hc
  · intro hc
    exact ⟨c.choice, hc, h, rfl⟩

/-- A checked configuration is restored exactly if the literal of its threshold denotes that
threshold, as every short literal does. Whatever is restored has the same rate, momentum coefficient
and settings, the threshold apart. -/
theorem restored_iff (c : Config) (h : c.check = .ok ()) :
    (ofText c.toText = .ok c ↔ ∀ threshold strict, c.choice = .information threshold strict →
      (Value.ofDouble threshold).toDouble? = some threshold) ∧
    (∀ threshold strict n, c.choice = .information threshold strict →
      Number.ofBinary? Number.doubleWindow threshold = some n → n.IsShort →
        ofText c.toText = .ok c) ∧
    ∀ d, ofText c.toText = .ok d → d.check = .ok () ∧ d.rate = c.rate ∧ d.beta = c.beta ∧
      (d.choice = c.choice ∨ ∃ threshold strict t, c.choice = .information threshold strict ∧
        d.choice = .information t strict) := by
  refine ⟨(ofText_toText_iff h).trans Choice.reread?_eq_self_iff, ?_, ?_⟩
  · intro threshold strict n hc hn hs
    have hread : (Value.ofDouble threshold).toDouble? = some threshold := by
      rw [Value.ofDouble, hn]
      exact Number.toDouble?_ofBinary? hn hs
    refine (ofText_toText_iff h).mpr (Choice.reread?_eq_self_iff.mpr fun t s he => ?_)
    rw [hc] at he
    cases he
    exact hread
  · intro d hd
    obtain ⟨choice, hr, hk, rfl⟩ := (ofText_toText_ok_iff h).mp hd
    refine ⟨hk, rfl, rfl, ?_⟩
    cases hc : c.choice with
    | information threshold strict =>
      rw [hc] at hr
      obtain ⟨t, -, rfl⟩ := Option.map_eq_some_iff.mp hr
      exact Or.inr ⟨threshold, strict, t, rfl, rfl⟩
    | mean =>
      rw [hc] at hr
      cases hr
      exact Or.inl rfl
    | central assumed =>
      rw [hc] at hr
      cases hr
      exact Or.inl rfl

theorem restored_iff_short :
    ofText (toText ⟨.information (.ofRatio false 5 2) true, .ofRatio false 1 10,
        .ofRatio false 9 10⟩)
      = .ok ⟨.information (.ofRatio false 5 2) true, .ofRatio false 1 10, .ofRatio false 9 10⟩ := by
  refine (restored_iff _ (by decide +kernel)).2.1 _ _ ⟨false, 2, [5], none⟩ rfl ?_ ?_
  · decide +kernel
  · decide +kernel

/-- The threshold 51 numbers above two is written with seventeen digits, and they are read as the
number below it. -/
theorem threshold_drifts :
    let c : Config := ⟨.information (.ofBits 0x4000000000000033) false, .ofNat 1, .zero⟩
    c.check = .ok () ∧ ofText c.toText ≠ .ok c ∧
      ofText c.toText
        = .ok { c with choice := .information (.ofBits 0x4000000000000032) false } := by
  intro c
  have hc : c.check = .ok () := by decide
  have hr : c.choice.reread? = some (.information (.ofBits 0x4000000000000032) false) := by
    decide +kernel
  have hk : check { c with choice := .information (.ofBits 0x4000000000000032) false }
      = .ok () := by
    decide
  refine ⟨hc, fun h => ?_, (ofText_toText_ok_iff hc).mpr ⟨_, hr, hk, rfl⟩⟩
  have hs := (ofText_toText_iff hc).mp h
  rw [hs] at hr
  revert hr
  decide

end Config

end Federation
