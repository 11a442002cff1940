import GekonOS.Kernel.Mm

set_option autoImplicit false

namespace GekonOS

-- kernel/kheap.c: the heap that `free` is passed is the only one there is
def kfree (fuel p : Nat) (k : Kernel) : Except Halt Kernel := free (kmallocInt fuel) p k

/--
What `kmain` does with memory before interrupts are on; `memUpper` is the field of the multiboot
information. In between it prints where the heap is.
-/
def kmain (fuel memUpper : Nat) (k : Kernel) : Except Halt Kernel := do
  let k ← pagingInit fuel memUpper k
  let k ← heapInstall fuel k
  let (addr, _, k) ← kmallocInt fuel 8 1 false k
  kfree fuel addr k

end GekonOS
