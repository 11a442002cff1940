import GekonOS.Shared.ByteMemory
import GekonOS.Shared.Word32

set_option autoImplicit false

namespace GekonOS

open ByteMemory

/-- The ways a call can fail to return: a failed `ASSERT` halts the machine for good. -/
inductive Halt where
  | panicAssert (file : String) (line : Nat) (desc : String)
  | outOfFuel
deriving DecidableEq, Repr

def ASSERT (b : Prop) [Decidable b] (file : String) (line : Nat) (desc : String) :
    Except Halt Unit :=
  if b then .ok () else .error (.panicAssert file line desc)

def pageSize : Nat := 4096

-- include/ordered_array.h

abbrev LessthanPredicate : Type := Mem → Nat → Nat → Bool

structure OrderedArray where
  array : Nat
  size : Nat
  maxSize : Nat
  -- `none` is the null function pointer
  lessThan : Option LessthanPredicate

-- include/kheap.h

structure Heap where
  index : OrderedArray
  startAddress : Nat
  endAddress : Nat
  maxAddress : Nat
  supervisor : Nat
  readonly : Nat

-- include/paging.h

structure Page where
  present : Bool
  rw : Bool
  user : Bool
  accessed : Bool
  dirty : Bool
  unused : BitVec 7
  frameAddr : BitVec 20
deriving DecidableEq, Repr

def Page.zero : Page :=
  { present := false, rw := false, user := false, accessed := false, dirty := false,
    unused := 0, frameAddr := 0 }

structure PageDirectory where
  tablesPhysical : Nat → Nat
  tables : Nat → Nat
  physicalAddr : Nat

-- after `memset(dir, 0, sizeof(page_directory_t))`
def PageDirectory.zero : PageDirectory :=
  { tablesPhysical := fun _ => 0, tables := fun _ => 0, physicalAddr := 0 }

/--
The globals of the memory subsystem and the objects they point to. `mem` holds the kernel heap
area, the ordered index array included; the bitmap and the page table entries are objects of
their own, the entries by the address of each. The source keeps the bitmap apart from the directory
only while its words end in front of it, up to 128 megabytes of memory.
-/
structure Kernel where
  mem : Mem
  placementAddress : Nat
  kheap : Nat
  heap : Heap
  nframes : Nat
  framesAddr : Nat
  frames : Nat → BitVec 32
  directoryAddr : Nat
  directory : PageDirectory
  pages : Nat → Page

/-- The globals as the source initialises them. -/
def Kernel.boot : Kernel :=
  { mem := fun _ => 0
    placementAddress := 0x200000
    kheap := 0
    heap := { index := { array := 0, size := 0, maxSize := 0, lessThan := none }, startAddress := 0,
              endAddress := 0, maxAddress := 0, supervisor := 0, readonly := 0 }
    nframes := 0
    framesAddr := 0
    frames := fun _ => 0
    directoryAddr := 0
    directory := PageDirectory.zero
    pages := fun _ => Page.zero }

end GekonOS
