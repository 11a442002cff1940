import GekonOS.Heap.Rounds
import GekonOS.Heap.Stretch

set_option autoImplicit false

namespace GekonOS

open ByteMemory Loop

-- `create_heap` writes no footer for the hole that is the whole heap
def Footed (cs : List Chunk) (c : Chunk) : Prop := c.hole = true → cs ≠ [c]

/-- What every call leaves as it was: the chunks, the length, and where the heap and its index are. -/
structure Sound (k : Kernel) (cs : List Chunk) : Prop where
  wf : WellFormed (Footed cs) k cs
  aligned : k.heap.startAddress % 4096 = 0
  low : 4096 ≤ k.heap.startAddress
  page : (k.heap.endAddress - k.heap.startAddress) % 4096 = 0
  least : heapMinSize ≤ k.heap.endAddress - k.heap.startAddress
  bound : k.heap.endAddress ≤ k.heap.maxAddress
  limit : k.heap.maxAddress < 1073741824
  apart : Disjoint (k.heap.index.region k.heap.index.maxSize)
    (Set.Ico k.heap.startAddress k.heap.maxAddress)
  capacity : 1 < k.heap.index.maxSize
  mapped : Mapped k k.heap.maxAddress

variable {kmallocInt : Kmalloc} {k k' : Kernel} {cs cs' pre post front rest : List Chunk}
  {hole block last c : Chunk} {size newSize pageAlign fuel : Nat}

theorem Footed.of_mem {b : Chunk} (member : b ∈ cs) (used : b.hole = false) (c : Chunk) :
    Footed cs c := by
  rintro free rfl
  rw [List.mem_singleton.mp member, free] at used
  exact absurd used (by decide)

theorem Footed.of_ne (member : hole ∈ cs) (other : c ≠ hole) : Footed cs c := by
  rintro - rfl
  exact other (List.mem_singleton.mp member).symm

namespace Sound

theorem tagged (sound : Sound k cs) (member : block ∈ cs) (used : block.hole = false) :
    WellFormed Tagged k cs :=
  sound.wf.retag fun c _ _ => Footed.of_mem member used c

theorem others (sound : Sound k (pre ++ hole :: post)) :
    WellFormed (· ≠ hole) k (pre ++ hole :: post) :=
  sound.wf.retag fun _ _ other =>
    Footed.of_ne (List.mem_append_right _ List.mem_cons_self) other

theorem next (sound : Sound k cs) (stop : Nat)
    (heap : k'.heap = { k.heap with
      index := { k.heap.index with size := k'.heap.index.size }
      endAddress := stop })
    (directory : k'.directory = k.directory) (wf : WellFormed Tagged k' cs')
    (page : (stop - k.heap.startAddress) % 4096 = 0)
    (least : heapMinSize ≤ stop - k.heap.startAddress) (bound : stop ≤ k.heap.maxAddress) :
    Sound k' cs' := by
  have start : k'.heap.startAddress = k.heap.startAddress := by rw [heap]
  have end_ : k'.heap.endAddress = stop := by rw [heap]
  have max : k'.heap.maxAddress = k.heap.maxAddress := by rw [heap]
  have full : k'.heap.index.maxSize = k.heap.index.maxSize := by rw [heap]
  have region : k'.heap.index.region k'.heap.index.maxSize =
      k.heap.index.region k.heap.index.maxSize := by
    rw [heap]
    rfl
  constructor
  case wf => exact wf.retag fun _ _ _ => trivial
  case aligned => exact start ▸ sound.aligned
  case low => exact start ▸ sound.low
  case page => rw [start, end_]; exact page
  case least => rw [start, end_]; exact least
  case bound => rw [end_, max]; exact bound
  case limit => exact max ▸ sound.limit
  case apart => rw [region, start, max]; exact sound.apart
  case capacity => exact full ▸ sound.capacity
  case mapped => exact max ▸ sound.mapped.congr start directory

theorem cut (sound : Sound k (pre ++ hole :: post))
    (cut : Cut size k pre hole post front block rest k') :
    Sound k' (pre ++ (front ++ block :: rest) ++ post) := by
  have same := cut.same
  refine sound.next k.heap.endAddress ?_ ?_ cut.wf sound.page sound.least sound.bound
  · rw [same]
    rfl
  · rw [same]
    rfl

theorem grownEnd_eq (sound : Sound k cs) : grownEnd newSize k = k.heap.endAddress + gain newSize := by
  have page := sound.page
  have least := sound.least
  have minimum : heapMinSize = 458752 := rfl
  unfold grownEnd expandedLength gain
  rw [if_neg (by omega)]
  omega

theorem growing (sound : Sound k cs) (header : 20 ≤ newSize) (small : newSize < 1073741844)
    (grown : growHeap kmallocInt newSize k = .ok k') : Growing newSize k := by
  have page := sound.page
  have least := sound.least
  have bound := sound.bound
  have limit := sound.limit
  have low := sound.low
  have minimum : heapMinSize = 458752 := rfl
  have end_ : grownEnd newSize k = k.heap.endAddress + gain newSize := sound.grownEnd_eq
  have length : expandedLength (k.heap.endAddress - k.heap.startAddress + newSize) =
      k.heap.endAddress - k.heap.startAddress + gain newSize := by
    unfold grownEnd at end_
    omega
  have more : newSize < gain newSize ∧ gain newSize ≤ newSize + 4096 := by
    unfold gain
    omega
  have fits : k.heap.endAddress + gain newSize ≤ k.heap.maxAddress := by
    by_contra beyond
    have asked : Word32.add (Word32.sub k.heap.endAddress k.heap.startAddress) newSize =
        k.heap.endAddress - k.heap.startAddress + newSize := by
      rw [Word32.sub_of_le (by omega) (by omega), Word32.add_of_lt (by omega)]
    obtain ⟨file, row, desc, halted⟩ := expand_over kmallocInt
      (show k.heap.endAddress - k.heap.startAddress <
        k.heap.endAddress - k.heap.startAddress + newSize by omega)
      (by omega) (by omega) (by omega) (by omega)
    rw [growHeap_halts (asked.symm ▸ halted)] at grown
    cases grown
  exact
    { ext := { positive := by omega, le := by omega, bound := bound, limit := by omega,
               fits := by omega, top := by omega, mapped := sound.mapped }
      header := header, positive := by omega, apart := sound.apart }

end Sound

/-- The growth goes right: nothing but the end of the heap can get longer. -/
def GrowsRight (cs : List Chunk) : Prop :=
  (∀ c ∈ cs, c.hole = false) ∨ ∃ pre last, cs = pre ++ [last] ∧ last.hole = true

/-- The heap is longer by a hole at its end, or by what its last hole has gained. -/
structure Lengthens (newSize : Nat) (k : Kernel) (cs : List Chunk) (k' : Kernel)
    (pre : List Chunk) (hole : Chunk) : Prop where
  stretched : Stretched newSize k k' hole
  wf : WellFormed Tagged k' (pre ++ [hole])
  source : (cs = pre ∧ (∀ c ∈ cs, c.hole = false) ∧ hole.addr = k.heap.endAddress ∧
      k'.heap.index.entries k'.mem = [hole.addr]) ∨
    ∃ last, cs = pre ++ [last] ∧ last.hole = true ∧ hole.addr = last.addr ∧
      k'.heap.index.size = k.heap.index.size ∧
      k'.heap.index.entries k'.mem = k.heap.index.entries k.mem

namespace Sound

theorem lengthens (sound : Sound k cs) (right : GrowsRight cs) (header : 20 ≤ newSize)
    (small : newSize < 1073741844) (grown : growHeap kmallocInt newSize k = .ok k') :
    ∃ pre hole, Lengthens newSize k cs k' pre hole := by
  have growing := sound.growing header small grown
  cases right with
  | inl full =>
    have wf : WellFormed Tagged k cs :=
      sound.wf.retag fun c member _ free => absurd (full c member) (by simp [free])
    obtain ⟨k1, hole, grown1, stretched, start, entries, wf1⟩ :=
      growing.new_hole wf kmallocInt full
    cases grown.symm.trans grown1
    exact ⟨cs, hole, stretched, wf1, Or.inl ⟨rfl, full, start, entries⟩⟩
  | inr ends =>
    obtain ⟨pre, last, rfl, free⟩ := ends
    obtain ⟨k1, hole, grown1, stretched, start, size, entries, wf1⟩ :=
      growing.longer_hole sound.others kmallocInt free
    cases grown.symm.trans grown1
    exact ⟨pre, hole, stretched, wf1, Or.inr ⟨last, rfl, free, start, size, entries⟩⟩

theorem grow (sound : Sound k cs) (growing : Growing newSize k)
    (longer : Lengthens newSize k cs k' pre hole) : Sound k' (pre ++ [hole]) := by
  have end_ : grownEnd newSize k = k.heap.endAddress + gain newSize := sound.grownEnd_eq
  have page := sound.page
  have least := sound.least
  have le := sound.wf.le
  have above := growing.ext.stop
  refine sound.next (grownEnd newSize k) longer.stretched.heap longer.stretched.directory
    longer.wf ?_ (by omega) above.2
  unfold gain at end_
  omega

end Sound

-- where the hole at the end starts, or where there would be a new one
def endAddr (k : Kernel) (cs : List Chunk) : Nat :=
  match cs.getLast? with
  | some c => if c.hole then c.addr else k.heap.endAddress
  | none => k.heap.endAddress

def endSize (cs : List Chunk) : Nat :=
  match cs.getLast? with
  | some c => if c.hole then c.size else 0
  | none => 0

theorem endAddr_snoc (k : Kernel) (free : last.hole = true) :
    endAddr k (pre ++ [last]) = last.addr ∧ endSize (pre ++ [last]) = last.size := by
  simp [endAddr, endSize, free]

theorem endAddr_full (k : Kernel) (full : ∀ c ∈ cs, c.hole = false) :
    endAddr k cs = k.heap.endAddress ∧ endSize cs = 0 := by
  cases cs using List.reverseRecOn with
  | nil => exact ⟨rfl, rfl⟩
  | append_singleton pre last =>
    have used := full last (by simp)
    simp [endAddr, endSize, used]

theorem Lengthens.hole_eq (longer : Lengthens newSize k cs k' pre hole) (sound : Sound k cs) :
    hole.addr = endAddr k cs ∧ hole.size = endSize cs + gain newSize := by
  have stop := longer.stretched.stop
  rw [sound.grownEnd_eq] at stop
  rcases longer.source with ⟨rfl, full, start, -⟩ | ⟨last, rfl, free, start, -⟩
  · obtain ⟨addr, size⟩ := endAddr_full k full
    omega
  · obtain ⟨addr, size⟩ : endAddr k (pre ++ [last]) = last.addr ∧ _ := endAddr_snoc k free
    have end_ : last.addr + last.size = k.heap.endAddress :=
      (Layout.middle.mp sound.wf.layout).2.2.2.tiles
    omega

end GekonOS
