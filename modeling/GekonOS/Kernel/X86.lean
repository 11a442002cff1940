import GekonOS.Shared.X86

set_option autoImplicit false

namespace GekonOS.Asm

open X86

-- kernel/x86.asm

def outportb : List Instr := [.load8 .eax .esp 8, .load16 .edx .esp 4, .out8, .ret]

def outportw : List Instr := [.load16 .eax .esp 8, .load16 .edx .esp 4, .out16, .ret]

-- it is `ax` that the data is loaded into here too
def outportl : List Instr := [.load16 .eax .esp 8, .load16 .edx .esp 4, .out32, .ret]

def inportb : List Instr := [.load16 .edx .esp 4, .in8, .ret]

def inportw : List Instr := [.load16 .edx .esp 4, .in16, .ret]

def inportl : List Instr := [.load16 .edx .esp 4, .in32, .ret]

def gdtFlush : List Instr := [
  .load32 .eax .esp 4, .lgdt .eax, .movImm16 .eax 0x10,
  .movToSeg .ds .eax, .movToSeg .es .eax, .movToSeg .fs .eax, .movToSeg .gs .eax,
  .movToSeg .ss .eax, .farJump 0x08, .ret]

def idtFlush : List Instr := [.load32 .eax .esp 4, .lidt .eax, .ret]

end GekonOS.Asm
