/-!
# Sorting short lists

Insertion, merging and the sort of up to 32 elements. A comparison says whether one element is
strictly below another. It need not be an order: elements then end up somewhere, and a merge from
both ends may find that its two ends do not meet, in which case it gives up.
-/

set_option autoImplicit false

namespace Federation

variable {β : Type} (below : β → β → Bool)

def insertBack (x : β) : List β → List β
  | [] => [x]
  | y :: ys => if below x y then y :: insertBack x ys else x :: y :: ys

def insertAll (sorted rest : List β) : List β :=
  (rest.foldl (fun back x => insertBack below x back) sorted.reverse).reverse

def insertionSort (xs : List β) : List β := insertAll below [] xs

/-- Takes as many elements from the fronts of two sorted lists as it is told, or until one of them
is used up. Of equal elements those of the first list come first. -/
def mergeFronts : Nat → List β → List β → List β × List β × List β
  | count + 1, x :: xs, y :: ys =>
    if below y x then
      let (taken, rest) := mergeFronts count (x :: xs) ys
      (y :: taken, rest)
    else
      let (taken, rest) := mergeFronts count xs (y :: ys)
      (x :: taken, rest)
  | _, xs, ys => ([], xs, ys)

def mergeForward (left right : List β) : List β :=
  let (taken, left', right') := mergeFronts below (left.length + right.length) left right
  taken ++ left' ++ right'

def merge (left right : List β) : List β :=
  if left.length ≤ right.length then mergeForward below left right
  else (mergeForward (fun x y => below y x) right.reverse left.reverse).reverse

/-- Merges two halves from both ends at once. The ends have to leave nothing of an even number of
elements and one element of an odd number. -/
def mergeEnds (left right : List β) : Option (List β) :=
  let half := left.length
  let (front, left', right') := mergeFronts below half left right
  let (back, _, left'') := mergeFronts (fun x y => below y x) half right.reverse left.reverse
  let unused := left'.length + left''.length
  if right.length = half then
    if unused = half then some (front ++ back.reverse) else none
  else if unused = half then some (front ++ right'.take 1 ++ back.reverse)
  else if unused = half + 1 then some (front ++ left'.take 1 ++ back.reverse)
  else none

def sortTwo (x y : β) : β × β := if below y x then (y, x) else (x, y)

def mergeTwos (a b c d : β) : List β :=
  let low := below c a
  let high := below d b
  let least := if low then c else a
  let greatest := if high then b else d
  let left := if low then a else if high then c else b
  let right := if high then d else if low then b else c
  if below right left then [least, right, left, greatest] else [least, left, right, greatest]

def sortFour : List β → List β
  | [x₀, x₁, x₂, x₃] =>
    let (a, b) := sortTwo below x₀ x₁
    let (c, d) := sortTwo below x₂ x₃
    mergeTwos below a b c d
  | xs => xs

def sortEight (xs : List β) : Option (List β) :=
  mergeEnds below (sortFour below (xs.take 4)) (sortFour below (xs.drop 4))

/-- Sorts a half of a list by sorting some elements in front at once and inserting the others. -/
def sortHalf (total : Nat) (half : List β) : Option (List β) :=
  if 16 ≤ total then do
    let front ← sortEight below (half.take 8)
    return insertAll below front (half.drop 8)
  else if 8 ≤ total then some (insertAll below (sortFour below (half.take 4)) (half.drop 4))
  else some (insertAll below (half.take 1) (half.drop 1))

def smallSort (xs : List β) : Option (List β) :=
  if xs.length < 2 then some xs
  else do
    let left ← sortHalf below xs.length (xs.take (xs.length / 2))
    let right ← sortHalf below xs.length (xs.drop (xs.length / 2))
    mergeEnds below left right

end Federation
