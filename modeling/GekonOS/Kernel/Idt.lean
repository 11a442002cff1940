import GekonOS.Kernel.Gdt

set_option autoImplicit false

namespace GekonOS

open X86

-- include/idt.h

structure IdtEntry where
  baseLo : BitVec 16
  sel : BitVec 16
  always0 : BitVec 8
  flags : BitVec 8
  baseHi : BitVec 16
deriving DecidableEq

def IdtEntry.bytes (e : IdtEntry) : List (BitVec 8) :=
  bytes16 e.baseLo ++ bytes16 e.sel ++ [e.always0, e.flags] ++ bytes16 e.baseHi

def IdtEntry.zero : IdtEntry := { baseLo := 0, sel := 0, always0 := 0, flags := 0, baseHi := 0 }

-- idt.c

def idtSetGate (num : Nat) (base : Word) (sel : BitVec 16) (flags : BitVec 8)
    (idtEntries : Nat → IdtEntry) : Nat → IdtEntry :=
  Function.update idtEntries num
    { baseLo := (base &&& 0xFFFF).setWidth 16
      baseHi := (base >>> 16 &&& 0xFFFF).setWidth 16
      sel := sel
      always0 := 0
      flags := flags }

/-- The entries that `IDT_Init` leaves; `stub` gives the addresses of `isr0` to `irq15`. -/
def idtInit (stub : Nat → Word) : Nat → IdtEntry :=
  (List.range 48).foldl (fun entries num => idtSetGate num (stub num) 0x08 0x8E entries)
    (fun _ => IdtEntry.zero)

-- `sizeof(idt_entry_t) * 256 - 1`
def idtLimit : BitVec 16 := 8 * 256 - 1

end GekonOS
