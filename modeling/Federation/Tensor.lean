import Federation.Matrix

/-!
# Tensors

A tensor has a shape and, in row-major order, as many entries as the shape asks for. The empty
shape is that of a single entry, and a shape with a zero asks for none.
-/

set_option autoImplicit false

namespace Federation

abbrev Shape := List Nat

def Shape.volume (shape : Shape) : Nat := shape.foldr (· * ·) 1

structure Tensor (α : Type) where
  shape : Shape
  entries : List α
  length_entries : entries.length = shape.volume
  deriving DecidableEq

namespace Tensor

variable {α β : Type}

def map (g : α → β) (t : Tensor α) : Tensor β where
  shape := t.shape
  entries := t.entries.map g
  length_entries := by rw [List.length_map, t.length_entries]

def zipWith (g : α → α → α) (s t : Tensor α) (h : s.shape = t.shape) : Tensor α where
  shape := s.shape
  entries := List.zipWith g s.entries t.entries
  length_entries := by
    rw [List.length_zipWith, s.length_entries, t.length_entries, h, Nat.min_self]

def vector (entries : List α) : Tensor α where
  shape := [entries.length]
  entries := entries
  length_entries := by simp [Shape.volume]

def ofMatrix (m : Matrix α) : Tensor α where
  shape := [m.height, m.width]
  entries := m.entries
  length_entries := by rw [m.length_entries]; simp [Shape.volume]

def vector? (t : Tensor α) : Option (List α) :=
  match t.shape with
  | [_] => some t.entries
  | _ => none

def matrix? (t : Tensor α) : Option (Matrix α) :=
  match h : t.shape with
  | [height, width] =>
    some (.ofEntries height width t.entries (by rw [t.length_entries, h]; simp [Shape.volume]))
  | _ => none

end Tensor

end Federation
