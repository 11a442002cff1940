import GekonOS.Shared.X86

set_option autoImplicit false

namespace GekonOS

open X86

-- kernel/interrupt.asm

/-- The bytes that `isr0` to `isr31` push before they jump to the common stub. -/
def isrPushes : List (List (BitVec 8)) := [
  [0, 0], [0, 1], [0, 2], [0, 3], [0, 4], [0, 5], [0, 6], [0, 7],
  [8], [0, 9], [10], [11], [12], [13], [14], [0, 15],
  [0, 16], [0, 17], [0, 18], [0, 19], [0, 20], [0, 21], [0, 22], [0, 23],
  [0, 24], [0, 25], [0, 26], [0, 27], [0, 28], [0, 29], [0, 30], [0, 31]]

-- those of `irq0` to `irq15`
def irqPushes : List (List (BitVec 8)) := [
  [0, 32], [1, 33], [2, 34], [3, 35], [4, 36], [5, 37], [6, 38], [7, 39],
  [8, 40], [9, 41], [10, 42], [11, 43], [12, 44], [13, 45], [14, 46], [15, 47]]

def stubPushes (intNo : Nat) : List (BitVec 8) := (isrPushes ++ irqPushes).getD intNo []

-- up to the call of the handler
def saveState : List Instr := [
  .pusha, .movFromSeg .eax .ds, .pushReg .eax, .movImm16 .eax 0x10,
  .movToSeg .ds .eax, .movToSeg .es .eax, .movToSeg .fs .eax, .movToSeg .gs .eax,
  .pushReg .esp, .cld]

-- the stubs differ in the register that they pop the segment into
def restoreState (scratch : Reg) : List Instr := [
  .pop scratch, .pop scratch,
  .movToSeg .ds scratch, .movToSeg .es scratch, .movToSeg .fs scratch, .movToSeg .gs scratch,
  .popa, .addImm .esp 8, .iret]

def isrCommonStub (back : Word) (isrHandler : Cpu → Cpu) : List Instr :=
  saveState ++ .call back isrHandler :: restoreState .eax

def irqCommonStub (back : Word) (irqHandler : Cpu → Cpu) : List Instr :=
  saveState ++ .call back irqHandler :: restoreState .ebx

-- `isr0` to `isr31` and `irq0` to `irq15`, with the common stub that they jump to
def interruptStub (back : Word) (isrHandler irqHandler : Cpu → Cpu) (intNo : Nat) : List Instr :=
  (stubPushes intNo).map .pushImm ++
    if intNo < 32 then isrCommonStub back isrHandler else irqCommonStub back irqHandler

/-- `registers_t` of include/isr.h. -/
structure Registers where
  ds : Word
  edi : Word
  esi : Word
  ebp : Word
  useless : Word
  ebx : Word
  edx : Word
  ecx : Word
  eax : Word
  intNo : Word
  errCode : Word
  eip : Word
  cs : Word
  eflags : Word
  esp : Word
  ss : Word
deriving DecidableEq

-- `*r`
def Registers.read (m : Memory) (r : Word) : Registers :=
  let field (i : Nat) : Word := read32 m (r + BitVec.ofNat 32 (4 * i))
  { ds := field 0, edi := field 1, esi := field 2, ebp := field 3, useless := field 4,
    ebx := field 5, edx := field 6, ecx := field 7, eax := field 8, intNo := field 9,
    errCode := field 10, eip := field 11, cs := field 12, eflags := field 13, esp := field 14,
    ss := field 15 }

end GekonOS
