import GekonOS.Shared.Descriptors
import Mathlib.Logic.Function.Basic

set_option autoImplicit false

namespace GekonOS

open X86

-- include/gdt.h

structure GdtEntry where
  limitLow : BitVec 16
  baseLow : BitVec 16
  baseMiddle : BitVec 8
  access : BitVec 8
  granularity : BitVec 8
  baseHigh : BitVec 8
deriving DecidableEq

-- the structure is packed
def GdtEntry.bytes (e : GdtEntry) : List (BitVec 8) :=
  bytes16 e.limitLow ++ bytes16 e.baseLow ++ [e.baseMiddle, e.access, e.granularity, e.baseHigh]

-- `gdt_pointer_t` and `idt_pointer_t`
def pointerBytes (limit : BitVec 16) (base : Word) : List (BitVec 8) := bytes16 limit ++ bytes32 base

def GdtEntry.zero : GdtEntry :=
  { limitLow := 0, baseLow := 0, baseMiddle := 0, access := 0, granularity := 0, baseHigh := 0 }

-- gdt.c

def gdtSetGate (num : Nat) (base limit : Word) (access gran : BitVec 8)
    (gdtEntries : Nat → GdtEntry) : Nat → GdtEntry :=
  Function.update gdtEntries num
    { baseLow := (base &&& 0xFFFF).setWidth 16
      baseMiddle := (base >>> 16 &&& 0xFF).setWidth 8
      baseHigh := (base >>> 24 &&& 0xFF).setWidth 8
      limitLow := (limit &&& 0xFFFF).setWidth 16
      granularity := (limit >>> 16 &&& 0x0F).setWidth 8 ||| (gran &&& 0xF0)
      access := access }

-- the five entries that `GDT_Init` leaves
def gdtInit : Nat → GdtEntry :=
  [(0, 0x00000000, 0x00, 0x00), (1, 0xFFFFFFFF, 0x9A, 0xCF), (2, 0xFFFFFFFF, 0x92, 0xCF),
    (3, 0xFFFFFFFF, 0xFA, 0xCF), (4, 0xFFFFFFFF, 0xF2, 0xCF)].foldl
    (fun entries (num, limit, access, gran) => gdtSetGate num 0 limit access gran entries)
    (fun _ => GdtEntry.zero)

-- `sizeof(gdt_entries) - 1`
def gdtLimit : BitVec 16 := 8 * 5 - 1

end GekonOS
