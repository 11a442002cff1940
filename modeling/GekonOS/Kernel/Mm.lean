import GekonOS.Kernel.Kheap

set_option autoImplicit false

namespace GekonOS

open ByteMemory Loop

/-- The part of `kmalloc_int` that runs while there is no kernel heap. -/
def kmallocPlacement (size align : Nat) (phys : Bool) (k : Kernel) : Nat × Option Nat × Kernel :=
  let placement := if align = 1 ∧ k.placementAddress &&& 0xFFFFF000 ≠ 0 then
    Word32.add (k.placementAddress &&& 0xFFFFF000) pageSize else k.placementAddress
  (placement, if phys then some placement else none,
    { k with placementAddress := Word32.add placement size })

-- `get_page` and `alloc` come back to `kmalloc_int` once there is a heap, hence the fuel
def kmallocInt (fuel : Nat) : Kmalloc := fun size align phys k =>
  if k.kheap ≠ 0 then
    match fuel with
    | 0 => .error .outOfFuel
    | fuel + 1 => do
      let (addr, k) ← alloc (kmallocInt fuel) (fuel + 1) size align k
      if phys then
        let (page, k) ← getPage (kmallocInt fuel) addr k
        pure (addr, some (Word32.add (Word32.mul (k.pages page).frameAddr.toNat pageSize)
          (addr &&& 0xFFF)), k)
      else pure (addr, none, k)
  else .ok (kmallocPlacement size align phys k)

def kmallocA (fuel size : Nat) (k : Kernel) : Except Halt (Nat × Option Nat × Kernel) :=
  kmallocInt fuel size 1 false k

def kmallocP (fuel size : Nat) (k : Kernel) : Except Halt (Nat × Option Nat × Kernel) :=
  kmallocInt fuel size 0 true k

def kmalloc (fuel size : Nat) (k : Kernel) : Except Halt (Nat × Option Nat × Kernel) :=
  kmallocInt fuel size 0 false k

theorem kmallocInt_placement {k : Kernel} (fuel size align : Nat) (phys : Bool)
    (noHeap : k.kheap = 0) :
    kmallocInt fuel size align phys k = .ok (kmallocPlacement size align phys k) := by
  unfold kmallocInt
  simp [noHeap]

-- carries `i`
def identityPages (fuel : Nat) (k : Kernel) : Except Halt (Nat × Kernel) :=
  whileLoop .outOfFuel
    (fun s => .ok (decide (s.1 < s.2.placementAddress)))
    (fun s => do
      let (page, k) ← getPage (kmallocInt fuel) s.1 s.2
      let (_, k) := allocFrame page 0 0 k
      pure (Word32.add s.1 pageSize, k))
    pageLoopFuel (0, k)

def sizeofPageDirectory : Nat := 8196

-- `memset(frames, 0, len)`; `len` counts bytes, so it may end inside a word
def memsetFrames (len : Nat) (frames : Nat → BitVec 32) : Nat → BitVec 32 := fun index =>
  if index < len / 4 then 0
  else if index = len / 4 then frames index >>> (8 * (len % 4)) <<< (8 * (len % 4))
  else frames index

/-- `paging_init` up to the end of its mapping loop; what follows prints and loads registers. -/
def pagingInit (fuel availableMem : Nat) (k : Kernel) : Except Halt Kernel := do
  let k := { k with nframes := Word32.mul availableMem 1024 / pageSize }
  let (framesAddr, _, k) ← kmalloc fuel (indexFromBit k.nframes) k
  let k := { k with
    framesAddr := framesAddr
    frames := memsetFrames (indexFromBit k.nframes) k.frames }
  let (dir, phys, k) ← kmallocAp (kmallocInt fuel) sizeofPageDirectory k
  let k := { k with
    directoryAddr := dir
    directory := { PageDirectory.zero with physicalAddr := phys.getD 0 } }
  let (_, k) ← identityPages fuel k
  pure k

-- carries `i`; maps the pages right above the placement address
def installPages (fuel : Nat) (k : Kernel) : Except Halt (Nat × Kernel) :=
  whileLoop .outOfFuel
    (fun s => .ok (decide (s.1 < Word32.add s.2.placementAddress 0x10000)))
    (fun s => do
      let (page, k) ← setPage (kmallocInt fuel) s.1 s.2
      let (_, k) := allocFrame page 0 0 k
      pure (Word32.add s.1 pageSize, k))
    pageLoopFuel (k.placementAddress, k)

-- carries `i`; maps the heap area
def heapPages (fuel : Nat) (k : Kernel) : Except Halt (Nat × Kernel) :=
  whileLoop .outOfFuel
    (fun s => .ok (decide (s.1 < kheapMax)))
    (fun s => do
      let (page, k) ← setPage (kmallocInt fuel) s.1 s.2
      let (_, k) := allocFrame page 0 0 k
      pure (Word32.add s.1 pageSize, k))
    pageLoopFuel (kheapStart, k)

def heapInstall (fuel : Nat) (k : Kernel) : Except Halt Kernel := do
  let (_, k) ← installPages fuel k
  let (_, k) ← heapPages fuel k
  let (heap, k) ← createHeap (kmallocInt fuel) kheapStart (kheapStart + kheapInitialSize)
    kheapMax 0 0 k
  pure { k with kheap := heap }

end GekonOS
