import Mathlib.Algebra.GroupWithZero.Nat
import Mathlib.Data.List.Range
import Mathlib.Tactic.TypeStar

/-!
# Streams used in pieces

An infinite stream is used piece by piece, each one as long as it is asked for and starting where the one before has ended. Whoever takes the pieces may have been given more of the stream than was asked for so far, and keeps the rest for the next piece.
-/

namespace Keystream

variable {α : Type*}

/-- The values of a stream from an index on. -/
def slice (stream : ℕ → α) (start count : ℕ) : List α :=
  (List.range count).map fun i => stream (start + i)

def pieces (stream : ℕ → α) : ℕ → List ℕ → List (List α)
  | _, [] => []
  | start, count :: counts => slice stream start count :: pieces stream (start + count) counts

@[simp] theorem slice_length (stream : ℕ → α) (start count : ℕ) :
    (slice stream start count).length = count := by
  rw [slice, List.length_map, List.length_range]

theorem slice_append (stream : ℕ → α) (start first second : ℕ) :
    slice stream start first ++ slice stream (start + first) second =
      slice stream start (first + second) := by
  rw [slice, slice, slice, List.range_add, List.map_append, List.map_map]
  congr 1
  apply List.map_congr_left
  intro i _
  rw [Function.comp_apply, Nat.add_assoc]

theorem slice_take {stream : ℕ → α} {start count all : ℕ} (hle : count ≤ all) :
    (slice stream start all).take count = slice stream start count := by
  have hsplit := slice_append stream start count (all - count)
  rw [Nat.add_sub_cancel' hle] at hsplit
  rw [← hsplit, List.take_left' (slice_length _ _ _)]

theorem slice_drop {stream : ℕ → α} {start count all : ℕ} (hle : count ≤ all) :
    (slice stream start all).drop count = slice stream (start + count) (all - count) := by
  have hsplit := slice_append stream start count (all - count)
  rw [Nat.add_sub_cancel' hle] at hsplit
  rw [← hsplit, List.drop_left' (slice_length _ _ _)]

/-- The pieces make up the stream as far as it is used: nothing is left out and nothing is used twice. -/
theorem flatten_pieces (stream : ℕ → α) (start : ℕ) (counts : List ℕ) :
    (pieces stream start counts).flatten = slice stream start counts.sum := by
  induction counts generalizing start with
  | nil => rfl
  | cons count counts ih => rw [pieces, List.flatten_cons, ih, slice_append, List.sum_cons]

end Keystream
