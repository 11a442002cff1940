import GekonOS.Shared.X86

set_option autoImplicit false

/-!
# Segment and gate descriptors

How the processor reads the entries of the descriptor tables.
-/

namespace X86

structure SegmentDescriptor where
  base : Word
  limit : BitVec 20
  access : BitVec 8
  flags : BitVec 4
deriving DecidableEq

structure Gate where
  offset : Word
  selector : BitVec 16
  flags : BitVec 8
deriving DecidableEq

def segmentDescriptor (m : Memory) (a : Word) : SegmentDescriptor :=
  { base := m (a + 7) ++ m (a + 4) ++ read16 m (a + 2)
    limit := (m (a + 6)).extractLsb' 0 4 ++ read16 m a
    access := m (a + 5)
    flags := (m (a + 6)).extractLsb' 4 4 }

def gateDescriptor (m : Memory) (a : Word) : Gate :=
  { offset := read16 m (a + 6) ++ read16 m a, selector := read16 m (a + 2), flags := m (a + 5) }

-- the last byte of a segment; the granularity is that of pages when the highest flag is set
def SegmentDescriptor.last (d : SegmentDescriptor) : Nat :=
  if d.flags.getLsbD 3 then d.limit.toNat * 4096 + 4095 else d.limit.toNat

/-- The linear address of an offset into a segment that does not expand down. -/
def SegmentDescriptor.linear (d : SegmentDescriptor) (offset : Word) : Option Word :=
  if offset.toNat ≤ d.last then some (d.base + offset) else none

-- where an entry of a table is, unless it is beyond the limit
def TableRegister.entry (t : TableRegister) (index : Nat) : Option Word :=
  if 8 * index + 7 ≤ t.limit.toNat then some (t.base + BitVec.ofNat 32 (8 * index)) else none

namespace Cpu

variable (c : Cpu)

/-- The segment of a selector; the null selector and those of a local table have none. -/
def segment (selector : BitVec 16) : Option SegmentDescriptor :=
  if selector.toNat / 8 = 0 ∨ selector.getLsbD 2 then none
  else (c.gdtr.entry (selector.toNat / 8)).map (segmentDescriptor c.mem)

def gate (vector : Nat) : Option Gate := (c.idtr.entry vector).map (gateDescriptor c.mem)

/--
A vector is delivered through a present interrupt gate for 32 bits, to a present code segment of the
privilege level of the code that is interrupted.
-/
def deliver (vector : Nat) (errorCode : Option Word) : Option Cpu := do
  let gate ← c.gate vector
  guard (gate.flags.getLsbD 7 ∧ gate.flags.extractLsb' 0 5 = 0x0E#5)
  let code ← c.segment gate.selector
  guard (code.access.getLsbD 7 ∧ code.access.extractLsb' 3 2 = 3#2 ∧
    code.access.extractLsb' 5 2 = (c.segs .cs).extractLsb' 0 2)
  let _ ← code.linear gate.offset
  pure (c.interrupt gate.selector gate.offset errorCode)

end Cpu

/-- The bytes stand in memory from `a` on. -/
def Stored (m : Memory) (a : Word) (bytes : List (BitVec 8)) : Prop :=
  ∀ i, (h : i < bytes.length) → m (a + BitVec.ofNat 32 i) = bytes[i]

-- as a little-endian machine stores them
def bytes16 (v : BitVec 16) : List (BitVec 8) := [v.extractLsb' 0 8, v.extractLsb' 8 8]

def bytes32 (v : Word) : List (BitVec 8) :=
  [v.extractLsb' 0 8, v.extractLsb' 8 8, v.extractLsb' 16 8, v.extractLsb' 24 8]

variable {m : Memory} {a : Word}

theorem append_halves (v : BitVec 16) : v.extractLsb' 8 8 ++ v.extractLsb' 0 8 = v := by
  apply BitVec.eq_of_getLsbD_eq
  intro i lt
  simp only [BitVec.getLsbD_append, BitVec.getLsbD_extractLsb']
  grind

namespace Stored

variable {front back : List (BitVec 8)}

theorem left (stored : Stored m a (front ++ back)) : Stored m a front := by
  intro i h
  rw [stored i (by rw [List.length_append]; omega)]
  exact List.getElem_append_left h

theorem right (stored : Stored m a (front ++ back)) :
    Stored m (a + BitVec.ofNat 32 front.length) back := by
  intro i h
  have byte := stored (front.length + i) (by rw [List.length_append]; omega)
  rw [BitVec.ofNat_add, ← BitVec.add_assoc] at byte
  rw [byte]
  simp

theorem head {b : BitVec 8} {bytes : List (BitVec 8)} (stored : Stored m a (b :: bytes)) :
    m a = b := by
  have byte := stored 0 (by simp)
  rwa [show a + BitVec.ofNat 32 0 = a by bv_omega] at byte

theorem tail {b : BitVec 8} {bytes : List (BitVec 8)} (stored : Stored m a (b :: bytes)) :
    Stored m (a + 1) bytes :=
  right (show Stored m a ([b] ++ bytes) from stored)

theorem half {v : BitVec 16} (stored : Stored m a (bytes16 v)) : read16 m a = v := by
  rw [read16, stored.tail.head, stored.head]
  exact append_halves v

theorem word {v : Word} (stored : Stored m a (bytes32 v)) : read32 m a = v := by
  have low : read16 m a = v.extractLsb' 8 8 ++ v.extractLsb' 0 8 := by
    rw [read16, stored.tail.head, stored.head]
  have high : read16 m (a + 2) = v.extractLsb' 24 8 ++ v.extractLsb' 16 8 := by
    have upper := stored.tail.tail
    rw [show a + 1 + 1 = a + 2 by bv_omega] at upper
    rw [read16, upper.tail.head, upper.head]
  rw [read32, low, high]
  exact append_bytes v

end Stored

end X86
