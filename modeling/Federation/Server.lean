import Federation.Audit
import Federation.Rule

/-!
# The server

A rule, the current state, the number of completed rounds and their audit. A failed round changes
nothing that a later round can see.
-/

set_option autoImplicit false

namespace Federation

def libraryVersion : String := "0.1.0"

structure Server where
  rule : Rule
  state : State Single
  round : Nat
  audit : Audit.Log

namespace Server

def start (rule : Rule) (state : State Single) : Server := ⟨rule, state, 0, .empty⟩

def entry (s : Server) (clients : Nat) (outcome : Outcome) : Audit.Entry where
  round := s.round
  clients := clients
  selected := outcome.selected
  rejected := outcome.rejected
  method := s.rule.method.name

/-- Aggregates one round and returns the new global model. The last event says how the round ended,
but a panic leaves the server before it. -/
def run (s : Server) (updates : List (Params Single)) : Server × Logged (Params Single) :=
  let (rule, logged) := s.rule.round s.state updates
  match logged.result with
  | .error fault =>
    let closing := if fault.isPanic then [] else [.roundFailed s.round s.rule.method fault]
    ({ s with rule := rule }, ⟨logged.events ++ closing, .error fault⟩)
  | .ok outcome =>
    ({ rule := rule
       state := outcome.state
       round := s.round + 1
       audit := s.audit.push (s.entry updates.length outcome) },
      ⟨logged.events ++ [.roundComplete s.round s.rule.method updates.length
          outcome.selected.length outcome.rejected.length], .ok outcome.state.model⟩)

end Server

end Federation
