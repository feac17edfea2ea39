/-!
# Audits

A log of completed rounds: which clients each of them kept and dropped.
-/

set_option autoImplicit false

namespace Federation.Audit

structure Entry where
  round : Nat
  clients : Nat
  selected : List Nat
  rejected : List Nat
  method : String
  deriving DecidableEq

structure Log where
  entries : List Entry
  deriving DecidableEq

namespace Log

def empty : Log := ⟨[]⟩

def push (log : Log) (entry : Entry) : Log := ⟨log.entries ++ [entry]⟩

def length (log : Log) : Nat := log.entries.length

def last? (log : Log) : Option Entry := log.entries.getLast?

def rejectionCount (log : Log) (client : Nat) : Nat :=
  log.entries.countP fun e => e.rejected.contains client

end Log

end Federation.Audit
