import Federation.Params

/-!
# Euclidean norms and distances

Entries are widened to double precision before anything is squared or added.
-/

set_option autoImplicit false

namespace Federation

namespace Euclid

def squaredNorm (v : List Single) : Double :=
  Scalar.sum (v.map fun x => x.toDouble * x.toDouble)

def norm (v : List Single) : Double := (squaredNorm v).sqrt

def distance (v w : List Single) : Double :=
  let squares := List.zipWith (fun x y => (x.toDouble - y.toDouble) * (x.toDouble - y.toDouble)) v w
  (Scalar.sum squares).sqrt

end Euclid

namespace Params

def norm (p : Params Single) : Double := Euclid.norm p.flatten

def distance (p q : Params Single) : Except Fault Double :=
  if p.layout = q.layout then
    .ok (Scalar.sum (List.zipWith (fun s t => Euclid.distance s.entries t.entries)
      p.tensors q.tensors))
  else .error (.shape (.layouts p.layout q.layout))

end Params

end Federation
