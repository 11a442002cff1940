import GekonOS.Kernel.OrderedArray
import GekonOS.Kernel.Paging

set_option autoImplicit false

namespace GekonOS

open ByteMemory Loop

def kheapStart : Nat := 0x01000000
def kheapInitialSize : Nat := 0x00100000
def kheapMax : Nat := 0x01000000 + 0x00FFF000
def heapIndexSize : Nat := 0x20000
def heapMagic : Nat := 0x123890AB
def heapMinSize : Nat := 0x70000

-- `sizeof(header_t)`: `magic` at 0, `is_hole` at 4, `size` at 8
def sizeofHeader : Nat := 12

-- `sizeof(footer_t)`: `magic` at 0, `header` at 4
def sizeofFooter : Nat := 8

def headerMagic (m : Mem) (h : Nat) : Nat := read32 m h
def headerIsHole (m : Mem) (h : Nat) : Nat := read8 m (h + 4)
def headerSize (m : Mem) (h : Nat) : Nat := read32 m (h + 8)
def footerMagic (m : Mem) (f : Nat) : Nat := read32 m f
def footerHeader (m : Mem) (f : Nat) : Nat := read32 m (f + 4)

def setHeaderMagic (m : Mem) (h v : Nat) : Mem := write32 m h v
def setHeaderIsHole (m : Mem) (h v : Nat) : Mem := write8 m (h + 4) v
def setHeaderSize (m : Mem) (h v : Nat) : Mem := write32 m (h + 8) v
def setFooterMagic (m : Mem) (f v : Nat) : Mem := write32 m f v
def setFooterHeader (m : Mem) (f v : Nat) : Mem := write32 m (f + 4) v

def Kernel.withIndex (k : Kernel) (index : OrderedArray) (m : Mem) : Kernel :=
  { k with mem := m, heap := { k.heap with index := index } }

-- more page steps than a 32-bit address space has pages
def pageLoopFuel : Nat := 1048577

def expandPages (kmallocInt : Kmalloc) (newSize i : Nat) (k : Kernel) :
    Except Halt (Nat × Kernel) :=
  whileLoop .outOfFuel
    (fun s => .ok (decide (s.1 < newSize)))
    (fun s => do
      let heap := s.2.heap
      let (page, k) ← getPage kmallocInt (Word32.add heap.startAddress s.1) s.2
      let (_, k) := allocFrame page (if heap.supervisor ≠ 0 then 1 else 0)
        (if heap.readonly ≠ 0 then 0 else 1) k
      pure (Word32.add s.1 pageSize, k))
    pageLoopFuel (i, k)

def expand (kmallocInt : Kmalloc) (newSize : Nat) (k : Kernel) : Except Halt Kernel := do
  ASSERT (newSize > Word32.sub k.heap.endAddress k.heap.startAddress) "kernel/kheap.c" 37
    "new_size > (heap->end_address - heap->start_address)"
  -- the nearest following page boundary, also for a size that is on one
  let newSize := if newSize &&& 0xFFFFF000 ≠ 0 then
    Word32.add (newSize &&& 0xFFFFF000) pageSize else newSize
  ASSERT (Word32.add k.heap.startAddress newSize ≤ k.heap.maxAddress) "kernel/kheap.c" 45
    "(heap->start_address + new_size) <= heap->max_address"
  let oldSize := Word32.sub k.heap.endAddress k.heap.startAddress
  let (_, k) ← expandPages kmallocInt newSize oldSize k
  pure { k with heap := { k.heap with endAddress := Word32.add k.heap.startAddress newSize } }

def contractPages (kmallocInt : Kmalloc) (newSize i : Nat) (k : Kernel) :
    Except Halt (Nat × Kernel) :=
  whileLoop .outOfFuel
    (fun s => .ok (decide (newSize < s.1)))
    (fun s => do
      let (page, k) ← getPage kmallocInt (Word32.add s.2.heap.startAddress s.1) s.2
      pure (Word32.sub s.1 pageSize, freeFrame page k))
    pageLoopFuel (i, k)

def contract (kmallocInt : Kmalloc) (newSize : Nat) (k : Kernel) : Except Halt (Nat × Kernel) := do
  ASSERT (newSize < Word32.sub k.heap.endAddress k.heap.startAddress) "kernel/kheap.c" 64
    "new_size < (heap->end_address - heap->start_address)"
  let newSize := if newSize &&& pageSize ≠ 0 then
    Word32.add (newSize &&& pageSize) pageSize else newSize
  let newSize := if newSize < heapMinSize then heapMinSize else newSize
  let oldSize := Word32.sub k.heap.endAddress k.heap.startAddress
  let (_, k) ← contractPages kmallocInt newSize (Word32.sub oldSize pageSize) k
  pure (newSize,
    { k with heap := { k.heap with endAddress := Word32.add k.heap.startAddress newSize } })

-- a 32-bit word read as a `long`
def asLong (n : Nat) : Int := if n < 2147483648 then n else (n : Int) - 4294967296

def holeFits (size pageAlign : Nat) (m : Mem) (header : Nat) : Bool :=
  if pageAlign > 0 then
    let location := header
    let offset : Nat := if Word32.add location sizeofHeader &&& 0xFFFFF000 ≠ 0 then
      pageSize - Word32.add location sizeofHeader % pageSize else 0
    -- a difference of `long` has 32 bits, too
    let holeSize := asLong (Word32.sub (headerSize m header) offset)
    decide (holeSize ≥ asLong size)
  else decide (headerSize m header ≥ size)

def noHole : Nat := 0xDEADBEEF

def findSmallestHole (size pageAlign : Nat) (heap : Heap) (m : Mem) : Except Halt Nat := do
  let iterator ← whileLoop .outOfFuel
    (fun iterator => do
      if iterator < heap.index.size then
        let header ← lookupOrderedArray iterator heap.index m
        pure (!holeFits size pageAlign m header)
      else pure false)
    (fun iterator => .ok (iterator + 1))
    (heap.index.size + 1) 0
  if iterator = heap.index.size then pure noHole else pure iterator

def headerTLessThan : LessthanPredicate := fun m a b => decide (headerSize m a < headerSize m b)

def createHeap (kmallocInt : Kmalloc) (startAddr endAddr max supervisor readonly : Nat)
    (k : Kernel) : Except Halt (Nat × Kernel) := do
  let (heap, _, k) ← kmallocInt 32 1 false k
  ASSERT (startAddr % pageSize = 0) "kernel/kheap.c" 125 "start_addr % PAGE_SIZE == 0"
  ASSERT (endAddr % pageSize = 0) "kernel/kheap.c" 126 "end_addr % PAGE_SIZE == 0"
  let (index, m) := placeOrderedArray startAddr heapIndexSize (some headerTLessThan) k.mem
  let startAddr := Word32.add startAddr (4 * heapIndexSize)
  let startAddr := if startAddr &&& 0xFFFFF000 ≠ 0 then
    Word32.add (startAddr &&& 0xFFFFF000) pageSize else startAddr
  -- we start off with one large hole in the index
  let hole := startAddr
  let m := setHeaderSize m hole (Word32.sub endAddr startAddr)
  let m := setHeaderMagic m hole heapMagic
  let m := setHeaderIsHole m hole 1
  let (index, m) ← insertOrderedArray hole index m
  pure (heap,
    { k with
      mem := m
      heap := { index := index, startAddress := startAddr, endAddress := endAddr,
                maxAddress := max, supervisor := supervisor, readonly := readonly } })

def endmostHeader (index : OrderedArray) (m : Mem) : Except Halt (Nat × Int × Nat) :=
  whileLoop .outOfFuel
    (fun s => .ok (decide (s.1 < index.size)))
    (fun s => do
      let tmp ← lookupOrderedArray s.1 index m
      if tmp > s.2.2 then pure (s.1 + 1, (s.1 : Int), tmp) else pure (s.1 + 1, s.2.1, s.2.2))
    (index.size + 1) (0, -1, 0)

/-- What `alloc` does when no hole fits, up to its recursive call. -/
def growHeap (kmallocInt : Kmalloc) (newSize : Nat) (k : Kernel) : Except Halt Kernel := do
  let oldLength := Word32.sub k.heap.endAddress k.heap.startAddress
  let oldEndAddress := k.heap.endAddress
  let k ← expand kmallocInt (Word32.add oldLength newSize) k
  let newLength := Word32.sub k.heap.endAddress k.heap.startAddress
  let (_, idx, _) ← endmostHeader k.heap.index k.mem
  if idx = -1 then
    let header := oldEndAddress
    let m := setHeaderMagic k.mem header heapMagic
    let m := setHeaderSize m header (Word32.sub newLength oldLength)
    let m := setHeaderIsHole m header 1
    let footer := Word32.sub (Word32.add oldEndAddress (headerSize m header)) sizeofFooter
    let m := setFooterMagic m footer heapMagic
    let m := setFooterHeader m footer header
    let (index, m) ← insertOrderedArray header k.heap.index m
    pure (k.withIndex index m)
  else
    let header ← lookupOrderedArray idx.toNat k.heap.index k.mem
    let m := setHeaderSize k.mem header
      (Word32.add (headerSize k.mem header) (Word32.sub newLength oldLength))
    let footer := Word32.sub (Word32.add header (headerSize m header)) sizeofFooter
    let m := setFooterHeader m footer header
    let m := setFooterMagic m footer heapMagic
    pure { k with mem := m }

-- the front part of a hole that `alloc` cuts off to page-align the block behind it
def splitFront (origHolePos origHoleSize : Nat) (m : Mem) : Nat × Nat × Mem :=
  let front := Word32.sub (Word32.sub pageSize (origHolePos &&& 0xFFF)) sizeofHeader
  let newLocation := Word32.sub
    (Word32.sub (Word32.add origHolePos pageSize) (origHolePos &&& 0xFFF)) sizeofHeader
  let holeHeader := origHolePos
  let m := setHeaderSize m holeHeader front
  let m := setHeaderMagic m holeHeader heapMagic
  let m := setHeaderIsHole m holeHeader 1
  let holeFooter := Word32.sub newLocation sizeofFooter
  let m := setFooterMagic m holeFooter heapMagic
  let m := setFooterHeader m holeFooter holeHeader
  (newLocation, Word32.sub origHoleSize (headerSize m holeHeader), m)

def writeBlock (pos size newSize : Nat) (m : Mem) : Mem :=
  let m := setHeaderMagic m pos heapMagic
  let m := setHeaderIsHole m pos 0
  let m := setHeaderSize m pos newSize
  let footer := Word32.add (Word32.add pos sizeofHeader) size
  let m := setFooterMagic m footer heapMagic
  setFooterHeader m footer pos

-- the header and the footer of the hole behind the allocated block, and where it starts
def writeRemainder (pos size rest endAddress : Nat) (m : Mem) : Nat × Mem :=
  let holeHeader := Word32.add (Word32.add (Word32.add pos sizeofHeader) size) sizeofFooter
  let m := setHeaderMagic m holeHeader heapMagic
  let m := setHeaderIsHole m holeHeader 1
  let m := setHeaderSize m holeHeader rest
  let holeFooter := Word32.sub (Word32.add holeHeader rest) sizeofFooter
  if holeFooter < endAddress then
    let m := setFooterMagic m holeFooter heapMagic
    (holeHeader, setFooterHeader m holeFooter holeHeader)
  else (holeHeader, m)

/-- What `alloc` does with the hole at position `iterator` of the index. -/
def takeHole (size newSize pageAlign iterator : Nat) (k : Kernel) : Except Halt (Nat × Kernel) := do
  let origHolePos ← lookupOrderedArray iterator k.heap.index k.mem
  let origHoleSize := headerSize k.mem origHolePos
  let absorb := Word32.sub origHoleSize newSize < sizeofHeader + sizeofFooter
  let size := if absorb then Word32.add size (Word32.sub origHoleSize newSize) else size
  let newSize := if absorb then origHoleSize else newSize
  let (origHolePos, origHoleSize, k) ←
    if pageAlign ≠ 0 ∧ origHolePos &&& 0xFFFFF000 ≠ 0 then
      let (pos, rest, m) := splitFront origHolePos origHoleSize k.mem
      pure (pos, rest, { k with mem := m })
    else do
      let (index, m) ← removeOrderedArray iterator k.heap.index k.mem
      pure (origHolePos, origHoleSize, k.withIndex index m)
  let blockHeader := origHolePos
  let m := writeBlock blockHeader size newSize k.mem
  let rest := Word32.sub origHoleSize newSize
  let k ←
    if rest > 0 then do
      let (holeHeader, m) := writeRemainder origHolePos size rest k.heap.endAddress m
      let (index, m) ← insertOrderedArray holeHeader k.heap.index m
      pure (k.withIndex index m)
    else pure { k with mem := m }
  pure (Word32.add blockHeader sizeofHeader, k)

-- the end of `takeHole`: the block at `pos`, and a hole behind it when something is left
def placeBlock (pos total size newSize : Nat) (k : Kernel) : Except Halt (Nat × Kernel) := do
  let m := writeBlock pos size newSize k.mem
  let rest := Word32.sub total newSize
  let k ←
    if rest > 0 then do
      let (holeHeader, m) := writeRemainder pos size rest k.heap.endAddress m
      let (index, m) ← insertOrderedArray holeHeader k.heap.index m
      pure (k.withIndex index m)
    else pure { k with mem := m }
  pure (Word32.add pos sizeofHeader, k)

def alloc (kmallocInt : Kmalloc) : Nat → Nat → Nat → Kernel → Except Halt (Nat × Kernel)
  | 0, _, _, _ => .error .outOfFuel
  | fuel + 1, size, pageAlign, k => do
    let newSize := Word32.add (Word32.add size sizeofHeader) sizeofFooter
    let iterator ← findSmallestHole newSize pageAlign k.heap k.mem
    if iterator = noHole then
      let k ← growHeap kmallocInt newSize k
      alloc kmallocInt fuel size pageAlign k
    else takeHole size newSize pageAlign iterator k

def UnifiesLeft (header : Nat) (m : Mem) : Prop :=
  let testFooter := Word32.sub header sizeofFooter
  footerMagic m testFooter = heapMagic ∧ headerIsHole m (footerHeader m testFooter) = 1

instance (header : Nat) (m : Mem) : Decidable (UnifiesLeft header m) :=
  inferInstanceAs (Decidable (_ ∧ _))

-- the left merge of `free`: the header to go on with, `do_add` and memory
def unifyLeft (header footer : Nat) (m : Mem) : Nat × Nat × Mem :=
  if UnifiesLeft header m then
    let testFooter := Word32.sub header sizeofFooter
    let cacheSize := headerSize m header
    let header := footerHeader m testFooter
    let m := setFooterHeader m footer header
    let m := setHeaderSize m header (Word32.add (headerSize m header) cacheSize)
    (header, 0, m)
  else (header, 1, m)

-- the loops of `free` that look for a header in the index
def findInIndex (header : Nat) (index : OrderedArray) (m : Mem) : Except Halt Nat :=
  whileLoop .outOfFuel
    (fun iterator => do
      if iterator < index.size then
        let item ← lookupOrderedArray iterator index m
        pure (decide (item ≠ header))
      else pure false)
    (fun iterator => .ok (iterator + 1))
    (index.size + 1) 0

def UnifiesRight (testHeader : Nat) (m : Mem) : Prop :=
  headerMagic m testHeader = heapMagic ∧ headerIsHole m testHeader ≠ 0

instance (testHeader : Nat) (m : Mem) : Decidable (UnifiesRight testHeader m) :=
  inferInstanceAs (Decidable (_ ∧ _))

def unifyRight (header footer : Nat) (k : Kernel) : Except Halt (Nat × Kernel) := do
  let testHeader := Word32.add footer sizeofFooter
  if UnifiesRight testHeader k.mem then
    let m := setHeaderSize k.mem header
      (Word32.add (headerSize k.mem header) (headerSize k.mem testHeader))
    let footer := Word32.sub (Word32.add testHeader (headerSize m testHeader)) sizeofFooter
    let iterator ← findInIndex testHeader k.heap.index m
    ASSERT (iterator < k.heap.index.size) "kernel/kheap.c" 336 "iterator < heap->index.size"
    let (index, m) ← removeOrderedArray iterator k.heap.index m
    pure (footer, k.withIndex index m)
  else pure (footer, k)

-- the contraction of `free` when the merged hole ends the heap
def contractEnd (kmallocInt : Kmalloc) (header footer testHeader : Nat) (k : Kernel) :
    Except Halt Kernel := do
  if Word32.add footer sizeofFooter = k.heap.endAddress then
    let oldLength := Word32.sub k.heap.endAddress k.heap.startAddress
    let (newLength, k) ← contract kmallocInt (Word32.sub header k.heap.startAddress) k
    if Word32.sub (headerSize k.mem header) (Word32.sub oldLength newLength) > 0 then
      let m := setHeaderSize k.mem header
        (Word32.sub (headerSize k.mem header) (Word32.sub oldLength newLength))
      let footer := Word32.sub (Word32.add header (headerSize m header)) sizeofFooter
      let m := setFooterMagic m footer heapMagic
      let m := setFooterHeader m footer header
      pure { k with mem := m }
    else
      let iterator ← findInIndex testHeader k.heap.index k.mem
      if iterator < k.heap.index.size then
        let (index, m) ← removeOrderedArray iterator k.heap.index k.mem
        pure (k.withIndex index m)
      else pure k
  else pure k

def free (kmallocInt : Kmalloc) (p : Nat) (k : Kernel) : Except Halt Kernel := do
  if p = 0 then pure k
  else
    let header := Word32.sub p sizeofHeader
    let footer := Word32.sub (Word32.add header (headerSize k.mem header)) sizeofFooter
    ASSERT (headerMagic k.mem header = heapMagic) "kernel/kheap.c" 300
      "header->magic == HEAP_MAGIC"
    ASSERT (footerMagic k.mem footer = heapMagic) "kernel/kheap.c" 301
      "footer->magic == HEAP_MAGIC"
    let m := setHeaderIsHole k.mem header 1
    let (header, doAdd, m) := unifyLeft header footer m
    let testHeader := Word32.add footer sizeofFooter
    let (footer, k) ← unifyRight header footer { k with mem := m }
    let k ← contractEnd kmallocInt header footer testHeader k
    if doAdd = 1 then
      let (index, m) ← insertOrderedArray header k.heap.index k.mem
      pure (k.withIndex index m)
    else pure k

end GekonOS
