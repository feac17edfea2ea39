import Federation.Audit
import Federation.Document.Basic

/-!
# Audits as documents
-/

set_option autoImplicit false

namespace Federation.Audit

open Json

namespace Entry

def toValue (e : Entry) : Value :=
  .record [("round", .ofNat e.round), ("n_clients", .ofNat e.clients),
    ("selected", .ofNats e.selected), ("rejected", .ofNats e.rejected),
    ("method", .ofString e.method)]

def ofValue? (v : Value) : Option Entry := do
  match ← v.fields? ["round", "n_clients", "selected", "rejected", "method"] with
  | [round, clients, selected, rejected, method] =>
    return {
      round := ← Value.required? Value.toNat? round
      clients := ← Value.required? Value.toNat? clients
      selected := ← Value.required? (Value.toList? Value.toNat?) selected
      rejected := ← Value.required? (Value.toList? Value.toNat?) rejected
      method := ← Value.required? Value.toString? method }
  | _ => none

def ofText (text : String) : Except Fault Entry := Document.read ofValue? text

end Entry

namespace Log

def toValue (log : Log) : Value := .record [("entries", .array (log.entries.map Entry.toValue))]

def ofValue? (v : Value) : Option Log := do
  match ← v.fields? ["entries"] with
  | [entries] => return ⟨← Value.required? (Value.toList? Entry.ofValue?) entries⟩
  | _ => none

def toText (log : Log) : String := log.toValue.render .pretty

def ofText (text : String) : Except Fault Log := Document.read ofValue? text

end Log

end Federation.Audit
