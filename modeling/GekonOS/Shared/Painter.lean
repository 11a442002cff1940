import Mathlib.Data.List.Basic
import Mathlib.Logic.Function.Basic
import Mathlib.Logic.Function.Iterate

set_option autoImplicit false

/-!
# Drawing over what is drawn

A canvas is drawn on by stores, of which the last one at a place is seen. A layer says what a
drawing leaves at each place, if anything.
-/

namespace Painter

variable {α β ι : Type} [DecidableEq α]

def paint (stores : List (α × β)) (canvas : α → β) : α → β :=
  stores.foldl (fun canvas store => Function.update canvas store.1 store.2) canvas

abbrev Layer (α β : Type) : Type := α → Option β

def onTop (upper lower : Layer α β) : Layer α β := fun place => (upper place).or (lower place)

-- one colour at the places of a set
def plain (P : α → Prop) [DecidablePred P] (colour : β) : Layer α β := fun place =>
  if P place then some colour else none

/-- The stores leave the layer, and what was there before where the layer has nothing. -/
def Puts (stores : List (α × β)) (layer : Layer α β) : Prop :=
  ∀ canvas place, paint stores canvas place = (layer place).getD (canvas place)

variable {stores more : List (α × β)} {layer upper lower : Layer α β}

theorem paint_append (canvas : α → β) :
    paint (stores ++ more) canvas = paint more (paint stores canvas) :=
  List.foldl_append

theorem Puts.nil : Puts ([] : List (α × β)) fun _ => none := fun _ _ => rfl

theorem Puts.append (first : Puts stores lower) (second : Puts more upper) :
    Puts (stores ++ more) (onTop upper lower) := by
  intro canvas place
  rw [paint_append, second, first]
  unfold onTop
  cases upper place <;> rfl

theorem Puts.congr (puts : Puts stores lower) (same : ∀ place, lower place = upper place) :
    Puts stores upper := by
  obtain rfl : lower = upper := funext same
  exact puts

theorem Puts.single (place : α) (colour : β) :
    Puts [(place, colour)] (plain (· = place) colour) := by
  intro canvas other
  change Function.update canvas place colour other = (plain (· = place) colour other).getD _
  by_cases same : other = place
  · rw [plain, if_pos same, same, Function.update_self]
    rfl
  · rw [plain, if_neg same, Function.update_of_ne same]
    rfl

omit [DecidableEq α] in
theorem onTop_plain {P Q R : α → Prop} [DecidablePred P] [DecidablePred Q] [DecidablePred R]
    {colour : β} {place : α} (split : R place ↔ P place ∨ Q place) :
    onTop (plain P colour) (plain Q colour) place = plain R colour place := by
  unfold onTop plain
  by_cases above : P place
  · rw [if_pos above, if_pos (split.mpr (Or.inl above))]
    rfl
  · rw [if_neg above]
    by_cases below : Q place
    · rw [if_pos below, if_pos (split.mpr (Or.inr below))]
      rfl
    · rw [if_neg below, if_neg fun both => (split.mp both).elim above below]
      rfl

theorem Puts.uniform {colour : β} {P : α → Prop} [DecidablePred P]
    (colours : ∀ store ∈ stores, store.2 = colour)
    (places : ∀ place, P place ↔ ∃ store ∈ stores, store.1 = place) :
    Puts stores (plain P colour) := by
  induction stores generalizing P with
  | nil =>
    refine Puts.nil.congr fun place => ?_
    rw [plain, if_neg (by simp [places])]
  | cons store stores ih =>
    have later := ih (P := fun place => ∃ store ∈ stores, store.1 = place)
      (fun other member => colours other (List.mem_cons_of_mem _ member)) fun _ => Iff.rfl
    refine ((Puts.single store.1 store.2).append later).congr fun place => ?_
    rw [colours store List.mem_cons_self]
    apply onTop_plain
    rw [places, List.exists_mem_cons_iff, or_comm, eq_comm (a := store.1)]

/-- Drawings on top of each other: the last one that has something at a place is seen. -/
theorem Puts.flatMap {draw : ι → List (α × β)} {layerOf : ι → Layer α β} {items : List ι}
    (puts : ∀ item ∈ items, Puts (draw item) (layerOf item)) :
    Puts (items.flatMap draw) fun place =>
      items.reverse.findSome? fun item => layerOf item place := by
  induction items with
  | nil => exact Puts.nil
  | cons item items ih =>
    have first := puts item List.mem_cons_self
    have later := ih fun other member => puts other (List.mem_cons_of_mem _ member)
    refine (first.append later).congr fun place => ?_
    rw [List.reverse_cons, List.findSome?_append, List.findSome?_singleton]
    rfl

/-- A drawing that covers a set of places does not depend on what was there, however often. -/
theorem Puts.repeat (puts : Puts stores layer) (n : Nat) (canvas : α → β) (place : α) :
    (paint stores)^[n + 1] canvas place = (layer place).getD (canvas place) := by
  induction n with
  | zero => exact puts canvas place
  | succ n ih =>
    rw [Function.iterate_succ_apply', puts, ih]
    cases layer place <;> rfl

end Painter
