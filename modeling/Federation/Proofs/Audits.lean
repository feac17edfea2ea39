import Federation.Document.Audit
import Federation.Proofs.Json.Records

/-!
# Audits in documents

An audit is read back from its document exactly as it was written, entry by entry, whatever the
names of the methods are made of. The one thing that a document cannot keep is a count that does not
fit a word: no text at all is read as an audit with such a count.
-/

set_option autoImplicit false

namespace Federation.Audit

open Json Json.Value

namespace Entry

/-- All counts fit a word. -/
structure Counted (e : Entry) : Prop where
  round : e.round < Count.bound
  clients : e.clients < Count.bound
  selected : ∀ i ∈ e.selected, i < Count.bound
  rejected : ∀ i ∈ e.rejected, i < Count.bound

theorem counted_iff {e : Entry} : e.Counted ↔ e.round < Count.bound ∧ e.clients < Count.bound ∧
    (∀ i ∈ e.selected, i < Count.bound) ∧ ∀ i ∈ e.rejected, i < Count.bound :=
  ⟨fun h => ⟨h.round, h.clients, h.selected, h.rejected⟩,
    fun h => ⟨h.1, h.2.1, h.2.2.1, h.2.2.2⟩⟩

instance (e : Entry) : Decidable e.Counted := decidable_of_iff _ counted_iff.symm

theorem isTextual_toValue (e : Entry) : e.toValue.IsTextual := by
  apply isTextual_record
  intro f hf
  simp only [List.mem_cons, List.not_mem_nil, or_false] at hf
  rcases hf with rfl | rfl | rfl | rfl | rfl
  · exact isTextual_ofNat e.round
  · exact isTextual_ofNat e.clients
  · exact isTextual_ofNats e.selected
  · exact isTextual_ofNats e.rejected
  · rfl

theorem ofValue?_toValue {e : Entry} (h : e.Counted) : ofValue? e.toValue = some e := by
  have hfields : e.toValue.fields? ["round", "n_clients", "selected", "rejected", "method"]
      = some [some (.ofNat e.round), some (.ofNat e.clients), some (.ofNats e.selected),
        some (.ofNats e.rejected), some (.ofString e.method)] :=
    fields?_record (show ([("round", Value.ofNat e.round), ("n_clients", .ofNat e.clients),
      ("selected", .ofNats e.selected), ("rejected", .ofNats e.rejected),
      ("method", .ofString e.method)].map Prod.fst).Nodup by simp)
  rw [ofValue?, hfields]
  simp only [Option.bind_eq_bind, Option.bind_some, required?, toNat?_ofNat h.round,
    toNat?_ofNat h.clients, toNats?_ofNats h.selected, toNats?_ofNats h.rejected]
  rfl

theorem counted_of_ofValue? {v : Value} {e : Entry} (h : ofValue? v = some e) : e.Counted := by
  have hread : ∀ {α : Type} {read : Value → Option α} {field : Option Value} {a : α},
      required? read field = some a → ∃ w, read w = some a := by
    intro α read field a ha
    obtain ⟨w, -, hw⟩ := Option.bind_eq_some_iff.mp ha
    exact ⟨w, hw⟩
  unfold ofValue? at h
  obtain ⟨fields, -, h⟩ := Option.bind_eq_some_iff.mp h
  split at h
  · obtain ⟨round, hround, h⟩ := Option.bind_eq_some_iff.mp h
    obtain ⟨clients, hclients, h⟩ := Option.bind_eq_some_iff.mp h
    obtain ⟨selected, hselected, h⟩ := Option.bind_eq_some_iff.mp h
    obtain ⟨rejected, hrejected, h⟩ := Option.bind_eq_some_iff.mp h
    obtain ⟨method, -, h⟩ := Option.bind_eq_some_iff.mp h
    cases h
    obtain ⟨_, hround⟩ := hread hround
    obtain ⟨_, hclients⟩ := hread hclients
    obtain ⟨_, hselected⟩ := hread hselected
    obtain ⟨_, hrejected⟩ := hread hrejected
    exact ⟨toNat?_lt hround, toNat?_lt hclients, toNats?_lt hselected, toNats?_lt hrejected⟩
  · cases h

end Entry

namespace Log

/-- All counts of all entries fit a word. -/
def Counted (log : Log) : Prop := ∀ e ∈ log.entries, e.Counted

instance (log : Log) : Decidable log.Counted :=
  inferInstanceAs (Decidable (∀ e ∈ log.entries, e.Counted))

theorem isTextual_toValue (log : Log) : log.toValue.IsTextual := by
  apply isTextual_record
  intro f hf
  obtain rfl := List.mem_singleton.mp hf
  exact isTextual_array_map fun e _ => e.isTextual_toValue

theorem ofValue?_toValue {log : Log} (h : log.Counted) : ofValue? log.toValue = some log := by
  have hentries : (log.entries.map Entry.toValue).mapM Entry.ofValue? = some log.entries := by
    have hm : (log.entries.map Entry.toValue).mapM Entry.ofValue? = some (log.entries.map id) :=
      mapM_map_some fun e he => Entry.ofValue?_toValue (h e he)
    rwa [List.map_id] at hm
  have hfields : log.toValue.fields? ["entries"]
      = some [some (.array (log.entries.map Entry.toValue))] :=
    fields?_record (show ([("entries", Value.array (log.entries.map Entry.toValue))].map
      Prod.fst).Nodup by simp)
  rw [ofValue?, hfields]
  simp only [Option.bind_eq_bind, Option.bind_some, required?, toList?, hentries]
  rfl

theorem counted_of_ofValue? {v : Value} {log : Log} (h : ofValue? v = some log) :
    log.Counted := by
  unfold ofValue? at h
  obtain ⟨fields, -, h⟩ := Option.bind_eq_some_iff.mp h
  split at h
  · obtain ⟨entries, hentries, h⟩ := Option.bind_eq_some_iff.mp h
    cases h
    obtain ⟨v, -, hv⟩ := Option.bind_eq_some_iff.mp hentries
    intro e he
    obtain ⟨item, hitem⟩ := exists_of_toList? hv e he
    exact Entry.counted_of_ofValue? hitem
  · cases h

/-- An audit is read back from its document, with the same entries in the same order, exactly if its
counts fit a word. -/
theorem reads_back_iff (log : Log) : ofText log.toText = .ok log ↔ log.Counted := by
  rw [ofText, toText, Document.read_render_ok_iff Layout.pretty_isBlank log.isTextual_toValue]
  exact ⟨counted_of_ofValue?, ofValue?_toValue⟩

def thorny : Log :=
  ⟨[⟨0, 0, [], [], ""⟩,
    ⟨Count.bound - 1, Count.bound - 1, [0, Count.bound - 1], [1],
      "\"quoted\" \\ \x00\x1f\n\t \u00e9\u6f22"⟩]⟩

theorem reads_back_thorny : ofText thorny.toText = .ok thorny :=
  (reads_back_iff thorny).mpr (by decide)

end Log

end Federation.Audit
