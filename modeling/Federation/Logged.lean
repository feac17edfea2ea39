import Federation.Event

/-!
# Logged computations

A computation that reports events and then returns or fails. A failure ends it, and the events
before the failure stay.
-/

set_option autoImplicit false

namespace Federation

structure Logged (α : Type) where
  events : List Event
  result : Except Fault α

namespace Logged

variable {α β : Type}

def ofExcept (result : Except Fault α) : Logged α := ⟨[], result⟩

def fail (fault : Fault) : Logged α := ⟨[], .error fault⟩

def emit (event : Event) : Logged Unit := ⟨[event], .ok ()⟩

def bind (x : Logged α) (next : α → Logged β) : Logged β :=
  match x.result with
  | .ok a => ⟨x.events ++ (next a).events, (next a).result⟩
  | .error fault => ⟨x.events, .error fault⟩

instance : Monad Logged where
  pure a := ⟨[], .ok a⟩
  bind := bind

instance : MonadLift (Except Fault) Logged := ⟨ofExcept⟩

theorem bind_ok {x : Logged α} {a : α} (h : x.result = .ok a) (next : α → Logged β) :
    x >>= next = ⟨x.events ++ (next a).events, (next a).result⟩ := by
  change bind x next = _
  rw [bind, h]

theorem bind_error {x : Logged α} {fault : Fault} (h : x.result = .error fault)
    (next : α → Logged β) : x >>= next = ⟨x.events, .error fault⟩ := by
  change bind x next = _
  rw [bind, h]

end Logged

end Federation
