import Mathlib

set_option autoImplicit false

namespace GekonOS

-- include/queue.h

structure FifoQueue where
  buffer : Nat → UInt8
  inPtr : Nat
  outPtr : Nat
  size : Nat

-- `DECLARE_FIFO_QUEUE(_name, _size)`
def declareFifoQueue (size : Nat) : FifoQueue :=
  { buffer := fun _ => 0, inPtr := 0, outPtr := 0, size := size }

def fifoInsert (fifo : FifoQueue) (key : UInt8) : Int × FifoQueue :=
  let ptr := fifo.inPtr + 1
  let ptr := if ptr ≥ fifo.size then 0 else ptr
  if ptr = fifo.outPtr then (-1, fifo)
  else
    (0, { fifo with buffer := Function.update fifo.buffer fifo.inPtr key, inPtr := ptr })

-- the byte stored through `key`, if any
def fifoGet (fifo : FifoQueue) : Int × Option UInt8 × FifoQueue :=
  if fifo.inPtr = fifo.outPtr then (-1, none, fifo)
  else
    let key := fifo.buffer fifo.outPtr
    let outPtr := fifo.outPtr + 1
    (0, some key, { fifo with outPtr := if outPtr ≥ fifo.size then 0 else outPtr })

def fifoEmpty (fifo : FifoQueue) : Nat := if fifo.inPtr = fifo.outPtr then 1 else 0

namespace FifoQueue

structure Wf (fifo : FifoQueue) : Prop where
  inRange : fifo.inPtr < fifo.size
  outRange : fifo.outPtr < fifo.size

-- one slot always stays free, so that a full ring differs from an empty one
def count (fifo : FifoQueue) : Nat :=
  if fifo.outPtr ≤ fifo.inPtr then fifo.inPtr - fifo.outPtr
  else fifo.inPtr + fifo.size - fifo.outPtr

def position (fifo : FifoQueue) (i : Nat) : Nat :=
  if fifo.outPtr + i < fifo.size then fifo.outPtr + i else fifo.outPtr + i - fifo.size

def contents (fifo : FifoQueue) : List UInt8 :=
  (List.range fifo.count).map fun i => fifo.buffer (fifo.position i)

variable {fifo : FifoQueue}

@[simp] theorem length_contents : fifo.contents.length = fifo.count := by
  simp [contents]

theorem count_lt (wf : fifo.Wf) : fifo.count < fifo.size := by
  have := wf.inRange
  have := wf.outRange
  unfold count
  split <;> omega

theorem count_eq_zero (wf : fifo.Wf) : fifo.count = 0 ↔ fifo.inPtr = fifo.outPtr := by
  have := wf.inRange
  have := wf.outRange
  unfold count
  split <;> omega

theorem contents_eq_nil (wf : fifo.Wf) : fifo.contents = [] ↔ fifo.inPtr = fifo.outPtr := by
  rw [← count_eq_zero wf, ← length_contents, List.length_eq_zero_iff]

end FifoQueue

variable {fifo : FifoQueue}

theorem declareFifoQueue_correct {size : Nat} (positive : 0 < size) :
    (declareFifoQueue size).Wf ∧ (declareFifoQueue size).contents = [] :=
  ⟨⟨positive, positive⟩, rfl⟩

-- what an accepted key leaves behind
def FifoQueue.pushed (fifo : FifoQueue) (key : UInt8) : FifoQueue :=
  { fifo with
    buffer := Function.update fifo.buffer fifo.inPtr key
    inPtr := if fifo.inPtr + 1 ≥ fifo.size then 0 else fifo.inPtr + 1 }

theorem fifo_full (wf : fifo.Wf) :
    (if fifo.inPtr + 1 ≥ fifo.size then 0 else fifo.inPtr + 1) = fifo.outPtr ↔
      fifo.count + 1 = fifo.size := by
  have inRange := wf.inRange
  have outRange := wf.outRange
  unfold FifoQueue.count
  by_cases last : fifo.inPtr + 1 ≥ fifo.size
  · rw [if_pos last]
    split <;> omega
  · rw [if_neg last]
    split <;> omega

theorem fifoInsert_rejected (wf : fifo.Wf) (key : UInt8) (full : fifo.count + 1 = fifo.size) :
    fifoInsert fifo key = (-1, fifo) := by
  simp only [fifoInsert]
  rw [if_pos ((fifo_full wf).mpr full)]

theorem fifoInsert_pushed (wf : fifo.Wf) (key : UInt8) (space : fifo.count + 1 ≠ fifo.size) :
    fifoInsert fifo key = (0, fifo.pushed key) := by
  simp only [fifoInsert]
  rw [if_neg (fun full => space ((fifo_full wf).mp full))]
  rfl

theorem FifoQueue.count_pushed (wf : fifo.Wf) (key : UInt8) (space : fifo.count + 1 ≠ fifo.size) :
    (fifo.pushed key).count = fifo.count + 1 := by
  have inRange := wf.inRange
  have outRange := wf.outRange
  unfold count pushed at *
  by_cases last : fifo.inPtr + 1 ≥ fifo.size
  · simp only [if_pos last]
    split at space <;> split <;> omega
  · simp only [if_neg last]
    split at space <;> split <;> omega

theorem fifoInsert_accepted (wf : fifo.Wf) (key : UInt8) (space : fifo.count + 1 ≠ fifo.size) :
    ∃ fifo', fifoInsert fifo key = (0, fifo') ∧ fifo'.Wf ∧ fifo'.size = fifo.size ∧
      fifo'.contents = fifo.contents ++ [key] := by
  have inRange := wf.inRange
  have outRange := wf.outRange
  refine ⟨_, fifoInsert_pushed wf key space, ⟨?_, outRange⟩, rfl, ?_⟩
  · simp only [FifoQueue.pushed]
    split <;> omega
  · have same (i : Nat) : (fifo.pushed key).position i = fifo.position i := rfl
    simp only [FifoQueue.contents, FifoQueue.count_pushed wf key space, List.range_succ,
      List.map_append, List.map_cons, List.map_nil, same]
    congr 1
    · apply List.map_congr_left
      intro i member
      have before : i < fifo.count := List.mem_range.mp member
      apply Function.update_of_ne
      unfold FifoQueue.position
      unfold FifoQueue.count at before
      split at before <;> split <;> omega
    · have here : fifo.position fifo.count = fifo.inPtr := by
        unfold FifoQueue.position FifoQueue.count
        by_cases order : fifo.outPtr ≤ fifo.inPtr
        · rw [if_pos order]
          split <;> omega
        · rw [if_neg order]
          split <;> omega
      rw [here]
      simp [FifoQueue.pushed]

theorem fifoGet_empty (empty : fifo.inPtr = fifo.outPtr) : fifoGet fifo = (-1, none, fifo) := by
  simp [fifoGet, empty]

def FifoQueue.popped (fifo : FifoQueue) : FifoQueue :=
  { fifo with outPtr := if fifo.outPtr + 1 ≥ fifo.size then 0 else fifo.outPtr + 1 }

theorem FifoQueue.count_popped (wf : fifo.Wf) (pending : fifo.inPtr ≠ fifo.outPtr) :
    fifo.count = fifo.popped.count + 1 := by
  have inRange := wf.inRange
  have outRange := wf.outRange
  unfold count popped
  by_cases last : fifo.outPtr + 1 ≥ fifo.size
  · simp only [if_pos last]
    split <;> split <;> omega
  · simp only [if_neg last]
    split <;> split <;> omega

theorem FifoQueue.position_popped (wf : fifo.Wf) {i : Nat} (within : i + 1 < fifo.size) :
    fifo.popped.position i = fifo.position (i + 1) := by
  have outRange := wf.outRange
  unfold position popped
  by_cases last : fifo.outPtr + 1 ≥ fifo.size
  · simp only [if_pos last]
    split <;> split <;> omega
  · simp only [if_neg last]
    split <;> split <;> omega

theorem fifoGet_correct (wf : fifo.Wf) (pending : fifo.inPtr ≠ fifo.outPtr) :
    ∃ key fifo', fifoGet fifo = (0, some key, fifo') ∧ fifo'.Wf ∧ fifo'.size = fifo.size ∧
      fifo.contents = key :: fifo'.contents := by
  have inRange := wf.inRange
  have outRange := wf.outRange
  have bound := FifoQueue.count_lt wf
  have counts := FifoQueue.count_popped wf pending
  refine ⟨fifo.buffer fifo.outPtr, fifo.popped, ?_, ⟨inRange, ?_⟩, rfl, ?_⟩
  · simp only [fifoGet, if_neg pending]
    rfl
  · simp only [FifoQueue.popped]
    split <;> omega
  · unfold FifoQueue.contents
    rw [counts, List.range_succ_eq_map, List.map_cons, List.map_map]
    congr 1
    · unfold FifoQueue.position
      rw [if_pos (by omega), Nat.add_zero]
    · apply List.map_congr_left
      intro i member
      have before : i < fifo.popped.count := List.mem_range.mp member
      rw [FifoQueue.position_popped wf (by omega)]
      rfl

end GekonOS
