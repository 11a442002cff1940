import GekonOS.Shared.Transition
import Mathlib.Logic.Function.Basic

set_option autoImplicit false

/-!
# Blocks with contents

What an allocator is for: a map from the pointers in use to the contents of their blocks.
-/

namespace BlockStore

open Transition

variable {P B : Type} [DecidableEq P]

abbrev Store (P B : Type) : Type := P → Option (List B)

inductive Event (P B : Type)
  | alloc (p : P) (size : Nat)
  | free (p : P)
  | store (p : P) (i : Nat) (b : B)
  | load (p : P) (i : Nat) (b : B)

-- nothing is said of the contents of a new block
inductive Step (blocks : Store P B) : Event P B → Store P B → Prop
  | alloc (p : P) (bytes : List B) : blocks p = none →
      Step blocks (.alloc p bytes.length) (Function.update blocks p (some bytes))
  | free (p : P) {bytes : List B} : blocks p = some bytes →
      Step blocks (.free p) (Function.update blocks p none)
  | store (p : P) {i : Nat} (b : B) {bytes : List B} : blocks p = some bytes → i < bytes.length →
      Step blocks (.store p i b) (Function.update blocks p (some (bytes.set i b)))
  | load (p : P) {i : Nat} {b : B} {bytes : List B} : blocks p = some bytes →
      bytes[i]? = some b → Step blocks (.load p i b) blocks

-- the events after which something else may stand at `i` of the block
def Event.Changes (p : P) (i : Nat) : Event P B → Prop
  | .alloc q _ => q = p
  | .free q => q = p
  | .store q j _ => q = p ∧ j = i
  | .load _ _ _ => False

variable {blocks blocks' : Store P B} {p : P} {i : Nat} {b c : B} {event : Event P B}
  {events : List (Event P B)}

-- what stands at `i` of the block
def Has (blocks : Store P B) (p : P) (i : Nat) (b : B) : Prop :=
  ∃ bytes, blocks p = some bytes ∧ bytes[i]? = some b

theorem Has.step (has : Has blocks p i b) (step : Step blocks event blocks')
    (other : ¬ event.Changes p i) : Has blocks' p i b := by
  obtain ⟨bytes, here, at_⟩ := has
  cases step with
  | load _ _ _ => exact ⟨bytes, here, at_⟩
  | alloc q new fresh =>
    have apart : p ≠ q := fun same => other same.symm
    exact ⟨bytes, by rwa [Function.update_of_ne apart], at_⟩
  | free q found =>
    have apart : p ≠ q := fun same => other same.symm
    exact ⟨bytes, by rwa [Function.update_of_ne apart], at_⟩
  | store q d found within =>
    by_cases same : q = p
    · subst same
      rw [here] at found
      cases found
      have apart : _ ≠ i := fun place => other ⟨rfl, place⟩
      exact ⟨_, Function.update_self .., by rw [List.getElem?_set_ne apart, at_]⟩
    · exact ⟨bytes, by rwa [Function.update_of_ne (Ne.symm same)], at_⟩

theorem Has.run (has : Has blocks p i b) (run : Run Step blocks events blocks')
    (others : ∀ event ∈ events, ¬ event.Changes p i) : Has blocks' p i b := by
  induction run with
  | nil => exact has
  | snoc _ taken ih =>
    have earlier := ih fun event member => others event (List.mem_append_left _ member)
    exact earlier.step taken (others _ (List.mem_append_right _ (List.mem_singleton_self _)))

theorem load_last {before between : List (Event P B)}
    (run : Run Step blocks (before ++ .store p i b :: between ++ [.load p i c]) blocks')
    (others : ∀ event ∈ between, ¬ event.Changes p i) : c = b := by
  obtain ⟨t, earlier, loaded⟩ := run.last
  obtain ⟨u, -, stored⟩ := earlier.append_inv
  obtain ⟨v, first, rest⟩ := (show Run Step u ([.store p i b] ++ between) t from stored).append_inv
  have has : Has v p i b := by
    obtain ⟨w, none, taken⟩ := (show Run Step u ([] ++ [.store p i b]) v from first).last
    cases none.nil_eq
    cases taken with
    | store _ _ found within =>
      exact ⟨_, Function.update_self .., by rw [List.getElem?_set_self within]⟩
  obtain ⟨bytes, here, at_⟩ := has.run rest others
  cases loaded with
  | load _ found same =>
    rw [here] at found
    cases found
    rw [at_] at same
    exact (Option.some.inj same).symm

end BlockStore
