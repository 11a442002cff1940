import GekonOS.Kernel.State
import Mathlib.Logic.Function.Basic

set_option autoImplicit false

namespace GekonOS

def indexFromBit (a : Nat) : Nat := a / 32

def offsetFromBit (a : Nat) : Nat := a % 32

-- `long` has 32 bits on the target
def ulongMax : Nat := 0xFFFFFFFF

def setFrame (frameAddr : Nat) (frames : Nat → BitVec 32) : Nat → BitVec 32 :=
  let frame := frameAddr / pageSize
  let index := indexFromBit frame
  let offset := offsetFromBit frame
  Function.update frames index (frames index ||| 1#32 <<< offset)

def clearFrame (frameAddr : Nat) (frames : Nat → BitVec 32) : Nat → BitVec 32 :=
  let frame := frameAddr / pageSize
  let index := indexFromBit frame
  let offset := offsetFromBit frame
  Function.update frames index (frames index &&& ~~~(1#32 <<< offset))

-- the inner loop of `first_free_frame`
def firstFreeOffset (word : BitVec 32) (index : Nat) : Option Nat :=
  (List.range 32).findSome? fun offset =>
    if word &&& 1#32 <<< offset = 0#32 then some (index * 32 + offset) else none

def firstFreeFrame (nframes : Nat) (frames : Nat → BitVec 32) : Nat :=
  ((List.range (indexFromBit nframes)).findSome? fun index =>
    if frames index ≠ BitVec.ofNat 32 ulongMax then firstFreeOffset (frames index) index
    else none).getD ulongMax

def freeFrame (page : Nat) (k : Kernel) : Kernel :=
  let entry := k.pages page
  if entry.frameAddr ≠ 0 then
    { k with
      frames := clearFrame entry.frameAddr.toNat k.frames
      pages := Function.update k.pages page { entry with frameAddr := 0 } }
  else k

def allocFrame (page isKernel isWriteable : Nat) (k : Kernel) : Nat × Kernel :=
  let entry := k.pages page
  if entry.frameAddr = 0 then
    let index := firstFreeFrame k.nframes k.frames
    -- the source tests `index == ULONG_MAX` here and does nothing
    (index,
      { k with
        frames := setFrame (Word32.mul index pageSize) k.frames
        pages := Function.update k.pages page
          { entry with
            present := true
            rw := decide (isWriteable ≠ 0)
            user := decide (isKernel = 0)
            frameAddr := BitVec.ofNat 20 index } })
  else (0, k)

/--
`kmalloc_int` as the page tables and the heap see it: size, align and whether `phys` is a real
pointer, to the address, the value stored through `phys` and the state.
-/
abbrev Kmalloc : Type := Nat → Nat → Bool → Kernel → Except Halt (Nat × Option Nat × Kernel)

def kmallocAp (kmallocInt : Kmalloc) (size : Nat) (k : Kernel) :
    Except Halt (Nat × Option Nat × Kernel) :=
  kmallocInt size 1 true k

def sizeofPageTable : Nat := 4096

-- `memset(table, 0, PAGE_SIZE)`
def clearTable (table : Nat) (pages : Nat → Page) : Nat → Page := fun entry =>
  if table ≤ entry ∧ entry < table + pageSize then Page.zero else pages entry

def PageDirectory.Holds (dir : PageDirectory) (index : Nat) : Prop :=
  dir.tablesPhysical index &&& 1 ≠ 0 ∧ dir.tables index ≠ 0

instance (dir : PageDirectory) (index : Nat) : Decidable (dir.Holds index) :=
  inferInstanceAs (Decidable (_ ∧ _))

def enterTable (index table : Nat) (phys : Option Nat) (k : Kernel) : Kernel :=
  { k with
    directory := { k.directory with
      tables := Function.update k.directory.tables index table
      tablesPhysical := Function.update k.directory.tablesPhysical index (phys.getD 0 ||| 7) }
    pages := clearTable table k.pages }

def getPage (kmallocInt : Kmalloc) (address : Nat) (k : Kernel) : Except Halt (Nat × Kernel) := do
  let address := address >>> 12
  let tableIndex := address >>> 10
  if k.directory.Holds tableIndex then
    pure (k.directory.tables tableIndex + 4 * (address % 1024), k)
  else
    let (table, phys, k) ← kmallocAp kmallocInt sizeofPageTable k
    let k := enterTable tableIndex table phys k
    pure (k.directory.tables tableIndex + 4 * (address % 1024), k)

def setPage (kmallocInt : Kmalloc) (address : Nat) (k : Kernel) : Except Halt (Nat × Kernel) := do
  let address := address >>> 12
  let tableIndex := address >>> 10
  if k.directory.Holds tableIndex then
    pure (k.directory.tables tableIndex + 4 * (address % 1024), k)
  else
    let (table, phys, k) ← kmallocInt sizeofPageTable 1 true k
    let k := enterTable tableIndex table phys k
    pure (k.directory.tables tableIndex + 4 * (address % 1024), k)

theorem setPage_eq_getPage (kmallocInt : Kmalloc) (address : Nat) (k : Kernel) :
    setPage kmallocInt address k = getPage kmallocInt address k := rfl

end GekonOS
