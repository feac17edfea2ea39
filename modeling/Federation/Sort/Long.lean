import Federation.Sort.Short

/-!
# Sorting long lists

The list is cut into runs: stretches that ascend or fall already, and between them stretches of a
fixed length that are left unsorted as long as they can be joined with unsorted neighbours. A tree
of merges that is nearly balanced puts the runs together. Unsorted runs are partitioned around
pivots.
-/

set_option autoImplicit false

namespace Federation

variable {β : Type} (below : β → β → Bool)

structure Run (β : Type) where
  elements : List β
  sorted : Bool

def stretch (falling : Bool) : β → List β → Nat
  | _, [] => 0
  | x, y :: ys => if below y x = falling then stretch falling y ys + 1 else 0

def existingRun : List β → Nat × Bool
  | x :: y :: ys =>
    let falling := below y x
    (stretch below falling y ys + 2, falling)
  | xs => (xs.length, false)

theorem existingRun_pos {xs : List β} (h : xs ≠ []) : 0 < (existingRun below xs).1 := by
  match xs with
  | [] => exact absurd rfl h
  | [_] => exact Nat.one_pos
  | _ :: _ :: _ => exact Nat.succ_pos _

def runLength (long : Nat) (eager : Bool) (xs : List β) : Nat :=
  if long ≤ (existingRun below xs).1 then (existingRun below xs).1
  else if eager then 32
  else long

theorem runLength_pos (long : Nat) (eager : Bool) {xs : List β} (h : xs ≠ []) :
    0 < runLength below long eager xs := by
  have hpos := existingRun_pos below h
  unfold runLength
  split
  · exact hpos
  · split
    · exact Nat.succ_pos _
    · omega

/-- The next run. Eager runs are sorted at once. -/
def nextRun (long : Nat) (eager : Bool) (xs : List β) : Option (Run β) :=
  let elements := xs.take (runLength below long eager xs)
  if long ≤ (existingRun below xs).1 then
    some ⟨if (existingRun below xs).2 then elements.reverse else elements, true⟩
  else if eager then do return ⟨← smallSort below elements, true⟩
  else some ⟨elements, false⟩

def cutRuns (long : Nat) (eager : Bool) : List β → Option (List (Run β))
  | [] => some []
  | x :: xs => do
    let run ← nextRun below long eager (x :: xs)
    let runs ← cutRuns long eager ((x :: xs).drop (runLength below long eager (x :: xs)))
    return run :: runs
termination_by xs => xs.length
decreasing_by
  have hpos := runLength_pos below long eager (List.cons_ne_nil x xs)
  rw [List.length_drop, List.length_cons]
  omega

/-- The level in the tree of merges of the border between two runs: how many leading bits the
middles of the two have in common, of 64. -/
def borderLevel (scale start border stop : Nat) : Nat :=
  let bits := (scale * (start + border)) ^^^ (scale * (border + stop))
  if bits = 0 then 64 else 63 - bits.log2

def Run.settle (sortRun : List β → Option (List β)) (run : Run β) : Option (List β) :=
  if run.sorted then some run.elements else sortRun run.elements

/-- Two runs become one. It stays unsorted if both are and have room to be partitioned. -/
def Run.join (room : Nat) (sortRun : List β → Option (List β)) (left right : Run β) :
    Option (Run β) :=
  if left.sorted || right.sorted || decide (room < left.elements.length + right.elements.length)
  then do
    let xs ← left.settle sortRun
    let ys ← right.settle sortRun
    return ⟨merge below xs ys, true⟩
  else some ⟨left.elements ++ right.elements, false⟩

/-- Joins a run with those before it whose borders lie at the given level or deeper. -/
def collapse (room : Nat) (sortRun : List β → Option (List β)) (level : Nat) :
    List (Run β × Nat) → Run β → Option (List (Run β × Nat) × Run β)
  | (left, deep) :: stack, run =>
    if level ≤ deep then do
      let joined ← Run.join below room sortRun left run
      collapse room sortRun level stack joined
    else some ((left, deep) :: stack, run)
  | [], run => some ([], run)

def joinRuns (room scale : Nat) (sortRun : List β → Option (List β)) :
    Nat → List (Run β × Nat) → Run β → List (Run β) → Option (Run β)
  | _, stack, run, [] => do
    let (_, joined) ← collapse below room sortRun 0 stack run
    return joined
  | stop, stack, run, next :: runs => do
    let level := borderLevel scale (stop - run.elements.length) stop (stop + next.elements.length)
    let (stack, joined) ← collapse below room sortRun level stack run
    joinRuns room scale sortRun (stop + next.elements.length) ((joined, level) :: stack) next runs

def nearRoot (n : Nat) : Nat :=
  let shift := (1 + (n ||| 1).log2) / 2
  ((1 <<< shift) + (n >>> shift)) / 2

def longRun (n : Nat) : Nat := if n ≤ 4096 then min (n - n / 2) 64 else nearRoot n

def sortRuns (room : Nat) (eager : Bool) (sortRun : List β → Option (List β)) (xs : List β) :
    Option (List β) := do
  match ← cutRuns below (longRun xs.length) eager xs with
  | [] => return []
  | run :: runs =>
    let scale := ((1 <<< 62) + xs.length - 1) / xs.length
    let joined ← joinRuns below room scale sortRun run.elements.length [] run runs
    joined.settle sortRun

def belowAt (xs : List β) (i j : Nat) : Bool :=
  match xs[i]?, xs[j]? with
  | some x, some y => below x y
  | _, _ => false

def medianPlace (xs : List β) (i j k : Nat) : Nat :=
  if belowAt below xs i j = belowAt below xs i k then
    if belowAt below xs j k = belowAt below xs i j then j else k
  else i

/-- The place of a median of medians of three, each over a stretch of the given length. -/
def pivotPlace (xs : List β) (size i j k : Nat) : Nat :=
  if h : 8 ≤ size then
    let part (start : Nat) : Nat :=
      pivotPlace xs (size / 8) start (start + size / 8 * 4) (start + size / 8 * 7)
    medianPlace below xs (part i) (part j) (part k)
  else medianPlace below xs i j k
termination_by size
decreasing_by all_goals exact Nat.div_lt_self (by omega) (by decide)

def splitAround (test : β → Bool) (place : Nat) (first : Bool) (xs : List β) : List β × List β :=
  let (inside, outside) :=
    xs.zipIdx.partition fun e => if e.2 = place then first else test e.1
  (inside.map Prod.fst, outside.map Prod.fst)

/-- Partitions around pivots until the parts are small, or until the limit is reached. No element is
below the bound, which is a pivot from further left: a pivot that is not above it is the least
element, and then those equal to it are split off. -/
def quicksort (room : Nat) : Nat → Option β → List β → Option (List β)
  | 0, _, xs =>
    if xs.length ≤ 32 then smallSort below xs
    else sortRuns below room true (smallSort below) xs
  | limit + 1, bound, xs =>
    if xs.length ≤ 32 then smallSort below xs
    else do
      let size := xs.length / 8
      let place := pivotPlace below xs size 0 (size * 4) (size * 7)
      let pivot ← xs[place]?
      let (left, right) := splitAround (fun x => below x pivot) place false xs
      if bound.any (fun b => !below b pivot) || left.isEmpty then
        let (least, others) := splitAround (fun x => !below pivot x) place true xs
        let sorted ← quicksort room limit none others
        return least ++ sorted
      else
        let right ← quicksort room limit (some pivot) right
        let left ← quicksort room limit bound left
        return left ++ right

/-- Sorts a list of words: up to 20 by insertion, up to 64 in runs that are sorted at once, and more
in runs that are partitioned. -/
def standardSort (xs : List β) : Option (List β) :=
  if xs.length ≤ 20 then some (insertionSort below xs)
  else
    let room := max (xs.length - xs.length / 2) (min xs.length 1000000)
    sortRuns below room (xs.length ≤ 64)
      (fun run => quicksort below room (2 * (run.length ||| 1).log2) none run) xs

end Federation
