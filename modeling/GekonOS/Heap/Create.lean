import GekonOS.Boot.Placement
import GekonOS.Heap.Writes

set_option autoImplicit false

namespace GekonOS

open ByteMemory Placement

def createdHeap : Heap :=
  { index := { array := kheapStart, size := 1, maxSize := heapIndexSize,
               lessThan := some headerTLessThan }
    startAddress := 0x01081000
    endAddress := 0x01100000
    maxAddress := kheapMax
    supervisor := 0
    readonly := 0 }

def firstHole : Chunk :=
  { addr := 0x01081000, size := 0x7F000, hole := true, room := by decide }

def installCreate (kmallocInt : Kmalloc) (k : Kernel) : Except Halt (Nat × Kernel) :=
  createHeap kmallocInt kheapStart (kheapStart + kheapInitialSize) kheapMax 0 0 k

theorem installCreate_correct (fuel : Nat) (k : Kernel) (noHeap : k.kheap = 0)
    (fits : alignedAddress k.placementAddress 1 + 32 < 4294967296) :
    ∃ m, installCreate (kmallocInt fuel) k = .ok (alignedAddress k.placementAddress 1,
        { k with placementAddress := alignedAddress k.placementAddress 1 + 32, mem := m,
                 heap := createdHeap }) ∧
      createdHeap.index.entries m = [0x01081000] ∧ firstHole.HeaderAt m := by
  let index : OrderedArray :=
    { array := kheapStart, size := 0, maxSize := heapIndexSize, lessThan := some headerTLessThan }
  let m := setHeaderIsHole (setHeaderMagic (setHeaderSize
    (fill k.mem kheapStart 0 (Word32.mul heapIndexSize 4)) firstHole.addr firstHole.size)
    firstHole.addr heapMagic) firstHole.addr 1
  obtain ⟨m', inserted, entries, frame⟩ := insertOrderedArray_correct m
    (show index.lessThan = some headerTLessThan from rfl)
    (show firstHole.addr < 4294967296 by decide)
  have start : Word32.add kheapStart (4 * heapIndexSize) = 0x01080000 := by decide
  have aligned : (if 0x01080000 &&& 0xFFFFF000 ≠ 0 then
      Word32.add (0x01080000 &&& 0xFFFFF000) pageSize else 0x01080000) = firstHole.addr := by decide
  have length : Word32.sub (kheapStart + kheapInitialSize) firstHole.addr = firstHole.size := by
    decide
  refine ⟨m', ?_, ?_, ?_⟩
  · have onPage : kheapStart % pageSize = 0 ∧ (kheapStart + kheapInitialSize) % pageSize = 0 := by
      decide
    simp only [installCreate, createHeap, kmallocInt_placement _ _ _ _ noHeap,
      kmallocPlacement_correct fits, bind, Except.bind, pure, Except.pure, ASSERT, onPage, if_true,
      placeOrderedArray, start, aligned, length]
    simp only [index, m] at inserted
    simp only [inserted]
    rfl
  · exact entries
  · refine (tagHole_correct _ firstHole rfl (by decide)).congr (frame.mono ?_)
    intro x inside outside
    simp only [Chunk.bytes, firstHole, Set.mem_Ico] at inside
    simp only [OrderedArray.region, index, kheapStart, Set.mem_Ico] at outside
    omega

end GekonOS
