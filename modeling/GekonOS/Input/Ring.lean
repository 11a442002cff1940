import GekonOS.Kernel.Queue
import GekonOS.Shared.Transition

set_option autoImplicit false

namespace GekonOS.Ring

open Transition

inductive Op where
  | insert (key : UInt8)
  | get
  | empty

-- the value returned and the byte stored through `key`, if any
abbrev Answer : Type := Int × Option UInt8

def call (fifo : FifoQueue) : Op → Answer × FifoQueue
  | .insert key =>
    let (value, fifo) := fifoInsert fifo key
    ((value, none), fifo)
  | .get =>
    let (value, key, fifo) := fifoGet fifo
    ((value, key), fifo)
  | .empty => ((fifoEmpty fifo, none), fifo)

/-- A list that holds at most `capacity` elements, the oldest first. -/
def spec (capacity : Nat) (held : List UInt8) : Op → Answer × List UInt8
  | .insert key =>
    if held.length = capacity then ((-1, none), held) else ((0, none), held ++ [key])
  | .get =>
    match held with
    | [] => ((-1, none), [])
    | key :: rest => ((0, some key), rest)
  | .empty => ((if held = [] then 1 else 0, none), held)

structure Holds (size : Nat) (fifo : FifoQueue) (held : List UInt8) : Prop where
  wf : fifo.Wf
  size : fifo.size = size
  held : fifo.contents = held

variable {size : Nat} {fifo : FifoQueue} {held : List UInt8}

theorem Holds.length (holds : Holds size fifo held) : held.length = fifo.count := by
  rw [← holds.held, FifoQueue.length_contents]

theorem Holds.insert (holds : Holds size fifo held) (key : UInt8) :
    (call fifo (.insert key)).1 = (spec (size - 1) held (.insert key)).1 ∧
      Holds size (call fifo (.insert key)).2 (spec (size - 1) held (.insert key)).2 := by
  have below := FifoQueue.count_lt holds.wf
  have length := holds.length
  have same := holds.size
  by_cases full : fifo.count + 1 = fifo.size
  · simp only [call, spec, fifoInsert_rejected holds.wf key full]
    rw [if_pos (by omega)]
    exact ⟨rfl, holds⟩
  · obtain ⟨fifo', inserted, wf, kept, contents⟩ := fifoInsert_accepted holds.wf key full
    simp only [call, spec, inserted]
    rw [if_neg (by omega)]
    exact ⟨rfl, wf, kept.trans holds.size, contents.trans (by rw [holds.held])⟩

theorem Holds.get (holds : Holds size fifo held) :
    (call fifo .get).1 = (spec (size - 1) held .get).1 ∧
      Holds size (call fifo .get).2 (spec (size - 1) held .get).2 := by
  by_cases none : fifo.inPtr = fifo.outPtr
  · have nothing : held = [] := holds.held.symm.trans ((FifoQueue.contents_eq_nil holds.wf).mpr none)
    subst nothing
    simp only [call, spec, fifoGet_empty none]
    exact ⟨trivial, holds⟩
  · obtain ⟨key, fifo', got, wf, kept, contents⟩ := fifoGet_correct holds.wf none
    have split : held = key :: fifo'.contents := holds.held.symm.trans contents
    subst split
    simp only [call, spec, got]
    exact ⟨trivial, wf, kept.trans holds.size, rfl⟩

theorem Holds.empty (holds : Holds size fifo held) :
    (call fifo .empty).1 = (spec (size - 1) held .empty).1 ∧
      Holds size (call fifo .empty).2 (spec (size - 1) held .empty).2 := by
  refine ⟨?_, holds⟩
  have none : held = [] ↔ fifo.inPtr = fifo.outPtr := by
    rw [← holds.held, FifoQueue.contents_eq_nil holds.wf]
  simp only [call, spec, fifoEmpty, none]
  split <;> rfl

theorem Holds.call (holds : Holds size fifo held) (op : Op) :
    (call fifo op).1 = (spec (size - 1) held op).1 ∧
      Holds size (Ring.call fifo op).2 (spec (size - 1) held op).2 := by
  cases op with
  | insert key => exact holds.insert key
  | get => exact holds.get
  | empty => exact holds.empty

-- a refused call changes nothing and stores nothing
theorem call_refused (fifo : FifoQueue) (op : Op) (refused : (call fifo op).1.1 = -1) :
    call fifo op = ((-1, none), fifo) := by
  cases op with
  | insert key =>
    simp only [call, fifoInsert] at refused ⊢
    by_cases full : (if fifo.inPtr + 1 ≥ fifo.size then 0 else fifo.inPtr + 1) = fifo.outPtr
    · simp only [if_pos full]
    · simp [if_neg full] at refused
  | get =>
    simp only [call, fifoGet] at refused ⊢
    by_cases none : fifo.inPtr = fifo.outPtr
    · simp only [if_pos none]
    · simp [if_neg none] at refused
  | empty =>
    simp only [call, fifoEmpty] at refused
    split at refused <;> simp at refused

/--
From both pointers at zero, every list of calls is answered as the bounded list of capacity
`size - 1` answers it; after any of them the pointers are inside the buffer, the ring holds what
the list holds, and a call that returns -1 changes nothing.
-/
theorem ring_refines_list (size : Nat) (positive : 1 ≤ size) (buffer : Nat → UInt8)
    (ops : List Op) :
    let start : FifoQueue := { buffer := buffer, inPtr := 0, outPtr := 0, size := size }
    let fifo := (answers call start ops).2
    (answers call start ops).1 = (answers (spec (size - 1)) [] ops).1 ∧
      fifo.contents = (answers (spec (size - 1)) [] ops).2 ∧
      fifo.inPtr < size ∧ fifo.outPtr < size ∧
      ∀ op, (call fifo op).1.1 = -1 → call fifo op = ((-1, none), fifo) := by
  intro start fifo
  have initial : Holds size start [] := ⟨⟨positive, positive⟩, rfl, rfl⟩
  obtain ⟨same, holds⟩ := answers_simulate (R := Holds size)
    (fun _ _ op holds => Holds.call holds op) initial ops
  have inRange := holds.wf.inRange
  have outRange := holds.wf.outRange
  rw [holds.size] at inRange outRange
  exact ⟨same, holds.held, inRange, outRange, call_refused fifo⟩

theorem ring_refines_list_two : (answers call
      { buffer := fun _ => 0, inPtr := 0, outPtr := 0, size := 2 }
      [.insert 65, .insert 66, .empty, .get, .get, .empty]).1 =
    [(0, none), (-1, none), (0, none), (0, some 65), (-1, none), (1, none)] :=
  (ring_refines_list 2 (by decide) (fun _ => 0)
    [.insert 65, .insert 66, .empty, .get, .get, .empty]).1.trans (by decide)

end GekonOS.Ring
