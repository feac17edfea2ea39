import Federation.Proofs.Medians
import Federation.Proofs.Obstacles

/-!
# Retention

The edit of an informative majority never loses most of its clients: with a threshold above one it
keeps half of them, rounded up, and with any positive threshold it keeps the middle one of an odd
number. So the selection is not empty, whatever the clients sent, and a round that reaches the edit
can only be stopped by scores that do not scatter at all, in strict mode, or by the momentum.
-/

set_option autoImplicit false

namespace Federation.Information

open Statistics

variable {r : Information} {state : State Single} {model : Params Single}
  {updates : List (Params Single)} {table : Matrix Double} {edit : TwoSigma Double}

/-- What an edit owes to the clients of its round. -/
structure Retains (r : Information) (clients : Nat) (edit : TwoSigma Double) : Prop where
  majority : Scalar.lt Scalar.one r.threshold = true →
    (clients + 1) / 2 ≤ (edit.partition r.threshold).1.length
  middle : clients % 2 = 1 → Scalar.lt Scalar.zero r.threshold = true →
    1 ≤ (edit.partition r.threshold).1.length

/-- The threshold leaves some of so many clients, whatever their scores are. -/
def Spares (r : Information) (clients : Nat) : Prop :=
  Scalar.lt Scalar.one r.threshold = true ∨
    (clients % 2 = 1 ∧ Scalar.lt Scalar.zero r.threshold = true)

theorem Retains.ne_nil {clients : Nat} (h : r.Retains clients edit) (hn : 0 < clients)
    (hs : r.Spares clients) : (edit.partition r.threshold).1 ≠ [] := by
  rw [← List.length_pos_iff]
  rcases hs with hone | ⟨hodd, hzero⟩
  · have hmajority := h.majority hone
    omega
  · exact h.middle hodd hzero

theorem length_kept {values : List Double} (h : TwoSigma.ofValues values = .ok edit)
    (threshold : Double) :
    (edit.partition threshold).1.length = edit.scores.countP (Score.isWithin threshold) := by
  have hl := standardize?_length (TwoSigma.ofValues_ok_iff.mp h).2
  rw [partition_split h, ← hl, ← List.countP_eq_length_filter]
  exact countP_range_getElem? _ _

theorem edit_of_table (hne : updates ≠ [])
    (h : (r.clientTable model updates).2.result = .ok table) :
    ∃ edit, TwoSigma.ofValues (clientScores table) = .ok edit ∧
      (∃ w, edit.spread.HasRank w) ∧ r.Retains updates.length edit := by
  have hlen := clientScores_length h
  simp only [clientTable, Logged.result_bind_ok_iff, Logged.result_lift] at h
  obtain ⟨outputs, -, htable⟩ := h
  have hscores : clientScores table ≠ [] := by
    rw [← List.length_pos_iff, hlen]
    exact List.length_pos_iff.mpr hne
  obtain ⟨edit, he⟩ := TwoSigma.ofValues_exists hscores (clientScores_finite htable)
  obtain ⟨hspread, hmajority, hmiddle⟩ := TwoSigma.countP_isWithin r.threshold (by decide)
    (clientScores_hasRank htable) (TwoSigma.ofValues_ok_iff.mp he).2
  rw [hlen, ← length_kept he] at hmajority hmiddle
  exact ⟨edit, he, hspread, hmajority, hmiddle⟩

theorem editObstacle?_of_kept (hkept : (edit.partition r.threshold).1 ≠ []) :
    r.editObstacle? state edit ≠ some .emptySelection := by
  unfold editObstacle?
  rw [if_neg hkept]
  split
  · simp
  · split <;> simp

theorem editObstacle?_eq_none {w : Nat} (hkept : (edit.partition r.threshold).1 ≠ [])
    (hw : edit.spread.HasRank w)
    (hmode : r.strict = false ∨ Scalar.lt Scalar.zero edit.spread = true)
    (hmom : state.momentum.layout = state.model.layout) : r.editObstacle? state edit = none := by
  have hspread : ¬(edit.isDegenerate = true ∧ r.strict = true) := by
    rintro ⟨hd, hs⟩
    have hzero : w = 0 := of_decide_eq_true ((hw.eq_eq Binary.hasRank_zero).symm.trans hd)
    rcases hmode with hm | hm
    · rw [hs] at hm
      cases hm
    · have hpos : 0 < w := of_decide_eq_true ((Binary.hasRank_zero.lt_eq hw).symm.trans hm)
      omega
  rw [editObstacle?, if_neg hspread, if_neg hkept, if_pos hmom]

theorem result_of_table (hc : Average.check state.model updates = .ok ())
    (h : (r.clientTable state.model updates).2.result = .ok table) :
    (r.round state updates).2.result
      = (r.conclude state updates (clientScores table)).result := by
  unfold round
  rw [hc]
  simp only [Logged.result_bind, h]
  rfl

theorem round_of_table (hc : Average.check state.model updates = .ok ())
    (h : (r.clientTable state.model updates).2.result = .ok table)
    (he : TwoSigma.ofValues (clientScores table) = .ok edit) :
    Decides (r.editObstacle? state edit) (r.round state updates).2.result fun outcome =>
      (outcome.selected, outcome.rejected) = edit.partition r.threshold := by
  rw [result_of_table hc h]
  exact (conclude_decided (Average.check_ok_iff.mp hc).2 (clientScores_length h) he).mono
    fun outcome ho => ho.1

theorem table_of_emptySelection
    (h : (r.round state updates).2.result = .error .emptySelection) :
    ∃ table, Average.check state.model updates = .ok () ∧
      (r.clientTable state.model updates).2.result = .ok table := by
  cases hu : Average.obstacle? state.model updates with
  | some fault =>
    rw [result_round, hu] at h
    rcases Average.obstacle?_cases hu with rfl | ⟨client, rfl⟩ <;> cases h
  | none =>
    obtain ⟨hne, hl⟩ := Average.obstacle?_eq_none_iff.mp hu
    cases hp : r.probe.obstacle? r.batch state.model.layout with
    | some fault =>
      rw [round_of_refused hu hp] at h
      cases h
      cases Probe.obstacle?_isRefusal hp
    | none =>
      by_cases hc : (r.outputs state.model updates).Pairwise Correlated
      · obtain ⟨ht, -, hsize⟩ := clientTable_of_no_obstacle hl hp
        obtain ⟨table, htable⟩ := (table_decided hsize).1 hc
        exact ⟨table, Average.check_ok_iff.mpr ⟨hne, hl⟩, ht.trans htable⟩
      · rw [round_of_uncorrelated hu hp hc] at h
        cases h

/-- What the edit keeps in a round that reaches it. With a threshold above one it keeps a half of
the clients at least, and with one above zero somebody of an odd number. So the round is completed
with these clients, unless scores that do not scatter or the momentum stop it, and it never ends for
the lack of clients. -/
theorem majority_kept (r : Information) (state : State Single) (updates : List (Params Single)) :
    (∀ table, Average.check state.model updates = .ok () →
      (r.clientTable state.model updates).2.result = .ok table →
      ∃ edit, TwoSigma.ofValues (clientScores table) = .ok edit ∧
        r.Retains updates.length edit ∧
        (∀ outcome, (r.round state updates).2.result = .ok outcome →
          outcome.selected = (edit.partition r.threshold).1) ∧
        (r.Spares updates.length →
          r.strict = false ∨ Scalar.lt Scalar.zero edit.spread = true →
          state.momentum.layout = state.model.layout →
          ∃ outcome, (r.round state updates).2.result = .ok outcome)) ∧
    (r.Spares updates.length → (r.round state updates).2.result ≠ .error .emptySelection) := by
  constructor
  · intro table hc ht
    have hne := (Average.check_ok_iff.mp hc).1
    obtain ⟨edit, he, ⟨w, hw⟩, hretains⟩ := edit_of_table hne ht
    have hd := round_of_table hc ht he
    refine ⟨edit, he, hretains, fun outcome ho => ?_, fun hs hmode hmom => ?_⟩
    · exact congrArg Prod.fst (hd.of_ok ho)
    · have hkept := hretains.ne_nil (List.length_pos_iff.mpr hne) hs
      rw [editObstacle?_eq_none hkept hw hmode hmom] at hd
      obtain ⟨outcome, ho, -⟩ := hd
      exact ⟨outcome, ho⟩
  · intro hs h
    obtain ⟨table, hc, ht⟩ := table_of_emptySelection h
    have hne := (Average.check_ok_iff.mp hc).1
    obtain ⟨edit, he, -, hretains⟩ := edit_of_table hne ht
    have hkept := hretains.ne_nil (List.length_pos_iff.mpr hne) hs
    exact editObstacle?_of_kept hkept (((round_of_table hc ht he).error_iff _).mp h)

def threefold : Information :=
  ⟨.zeros 1 3 .identity, .constant 1 1 (.ofNat 1), .ofNat 1, .ofNat 0, defaultThreshold, false⟩

def columns (a b c : Nat) : Params Single :=
  ⟨[.ofMatrix (.ofEntries 1 3 [.ofNat a, .ofNat b, .ofNat c] rfl),
    .vector [.zero, .zero, .zero]]⟩

def scattering : List (Params Single) := [columns 1 2 3, columns 1 2 4, columns 3 1 2]

theorem majority_kept_scattering :
    ∃ outcome, (threefold.round (.fresh (columns 0 0 0)) scattering).2.result = .ok outcome ∧
      2 ≤ outcome.selected.length := by
  have hlayout : ∀ u ∈ scattering, u.layout = (columns 0 0 0).layout := by decide
  have hone : Scalar.lt Scalar.one threefold.threshold = true := by decide +kernel
  obtain ⟨ht, -, hsize⟩ := clientTable_of_no_obstacle (r := threefold) hlayout (by decide)
  obtain ⟨table, htable⟩ := (table_decided hsize).1 (by decide +kernel)
  obtain ⟨edit, -, hretains, hselected, hcompletes⟩ := (majority_kept threefold
    (.fresh (columns 0 0 0)) scattering).1 table rfl (ht.trans htable)
  obtain ⟨outcome, ho⟩ := hcompletes (Or.inl hone) (Or.inl rfl) rfl
  refine ⟨outcome, ho, ?_⟩
  rw [hselected outcome ho]
  exact hretains.majority hone

end Federation.Information
