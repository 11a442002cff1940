import Mathlib.Data.List.Induction

set_option autoImplicit false

/-!
# Terminated segments of a stream

Every occurrence of the terminator closes a segment; what follows the last one is the remainder.
-/

namespace Segments

variable {α : Type} [DecidableEq α] (terminator : α)

def step (s : List (List α) × List α) (x : α) : List (List α) × List α :=
  if x = terminator then (s.1 ++ [s.2], []) else (s.1, s.2 ++ [x])

def split (xs : List α) : List (List α) × List α := xs.foldl (step terminator) ([], [])

def segments (xs : List α) : List (List α) := (split terminator xs).1

def remainder (xs : List α) : List α := (split terminator xs).2

theorem split_append (xs : List α) (x : α) :
    split terminator (xs ++ [x]) = step terminator (split terminator xs) x := by
  simp [split]

@[simp] theorem segments_nil : segments terminator [] = [] := rfl

@[simp] theorem remainder_nil : remainder terminator [] = [] := rfl

@[simp] theorem segments_terminator (xs : List α) :
    segments terminator (xs ++ [terminator]) =
      segments terminator xs ++ [remainder terminator xs] := by
  simp [segments, remainder, split_append, step]

@[simp] theorem remainder_terminator (xs : List α) :
    remainder terminator (xs ++ [terminator]) = [] := by
  simp [remainder, split_append, step]

theorem segments_item {x : α} (xs : List α) (other : x ≠ terminator) :
    segments terminator (xs ++ [x]) = segments terminator xs := by
  simp [segments, split_append, step, other]

theorem remainder_item {x : α} (xs : List α) (other : x ≠ terminator) :
    remainder terminator (xs ++ [x]) = remainder terminator xs ++ [x] := by
  simp [remainder, split_append, step, other]

theorem segments_append (xs ys : List α) :
    segments terminator xs <+: segments terminator (xs ++ ys) := by
  induction ys using List.reverseRecOn with
  | nil => simp
  | append_singleton ys y ih =>
    rw [← List.append_assoc]
    by_cases last : y = terminator
    · rw [last, segments_terminator]
      exact ih.trans (List.prefix_append _ _)
    · rwa [segments_item terminator _ last]

theorem mem_remainder {x : α} {xs : List α} (member : x ∈ remainder terminator xs) : x ∈ xs := by
  induction xs using List.reverseRecOn with
  | nil => exact member
  | append_singleton xs y ih =>
    by_cases last : y = terminator
    · simp [last] at member
    · rw [remainder_item terminator _ last] at member
      cases List.mem_append.mp member with
      | inl earlier => exact List.mem_append_left _ (ih earlier)
      | inr here => exact List.mem_append_right _ here

end Segments
