import Federation.Fault

/-!
# Model parameters

An ordered list of tensors, one for each parameter of a model. The global model, a client's update
and the momentum of the server are all of this kind, and arithmetic combines only those of one
layout.
-/

set_option autoImplicit false

namespace Federation

structure Params (α : Type) where
  tensors : List (Tensor α)
  deriving DecidableEq

namespace Params

variable {α : Type}

def vector (entries : List α) : Params α := ⟨[.vector entries]⟩

def layout (p : Params α) : List Shape := p.tensors.map Tensor.shape

def flatten (p : Params α) : List α := p.tensors.flatMap Tensor.entries

def count (p : Params α) : Nat := p.flatten.length

def map (g : α → α) (p : Params α) : Params α := ⟨p.tensors.map (Tensor.map g)⟩

def combineTensors (g : α → α → α) :
    (ps qs : List (Tensor α)) → ps.map Tensor.shape = qs.map Tensor.shape → List (Tensor α)
  | [], _, _ => []
  | p :: ps, q :: qs, h =>
    p.zipWith g q (List.cons.inj h).1 :: combineTensors g ps qs (List.cons.inj h).2
  | _ :: _, [], h => absurd h (by simp)

def combine (g : α → α → α) (p q : Params α) (h : p.layout = q.layout) : Params α :=
  ⟨combineTensors g p.tensors q.tensors h⟩

section Arithmetic

variable [Scalar α]

def zeros (p : Params α) : Params α := p.map fun _ => Scalar.zero

def scale (factor : α) (p : Params α) : Params α := p.map (· * factor)

/-- `p + factor * q`; only parameters of one layout can be added. -/
def addScaled (p : Params α) (factor : α) (q : Params α) : Except Fault (Params α) :=
  if h : p.layout = q.layout then .ok (p.combine (fun x y => x + factor * y) q h)
  else .error (.shape (.layouts p.layout q.layout))

def add (p q : Params α) : Except Fault (Params α) := p.addScaled Scalar.one q

def sub (p q : Params α) : Except Fault (Params α) := p.addScaled (-Scalar.one) q

def agrees (p q : Params α) : Bool :=
  decide (p.layout = q.layout) && (p.flatten.zip q.flatten).all fun e => Scalar.eq e.1 e.2

end Arithmetic

end Params

end Federation
