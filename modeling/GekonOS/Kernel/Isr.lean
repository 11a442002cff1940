import Mathlib.Logic.Function.Basic

set_option autoImplicit false

namespace GekonOS

variable {H : Type}

-- what a handler of interrupts does to the outside, in the order it does it
inductive InterruptEffect (H : Type) where
  | outportb (port data : Nat)
  -- a call of a registered handler
  | call (handler : H)
  -- `kpanic("%s Exception", message)`
  | kpanic (message : String)
deriving DecidableEq

/-- The effects of a call and whether it returns. -/
structure InterruptTrace (H : Type) where
  effects : List (InterruptEffect H)
  returns : Bool

-- what stands behind a call that does not return is not reached
def InterruptTrace.andThen (first second : InterruptTrace H) : InterruptTrace H :=
  if first.returns then
    { effects := first.effects ++ second.effects, returns := second.returns }
  else first

-- `interrupt_handlers`; `none` is the null pointer
abbrev InterruptHandlers (H : Type) : Type := Nat → Option H

-- as a zero-initialised global
def InterruptHandlers.initial : InterruptHandlers H := fun _ => none

def exceptionMessages : List String := [
  "Division By Zero", "Debug", "Non Maskable Interrupt", "Breakpoint", "Into Detected Overflow",
  "Out of Bounds", "Invalid Opcode", "No Coprocessor", "Double Fault",
  "Coprocessor Segment Overrun", "Bad TSS", "Segment Not Present", "Stack Fault",
  "General Protection Fault", "Page Fault", "Unknown Interrupt", "Coprocessor Fault",
  "Alignment Check", "Machine Check", "Reserved", "Reserved", "Reserved", "Reserved", "Reserved",
  "Reserved", "Reserved", "Reserved", "Reserved", "Reserved", "Reserved", "Reserved", "Reserved"]

-- prints, turns interrupts off and loops for good
def kpanic (message : String) : InterruptTrace H :=
  { effects := [.kpanic message], returns := false }

def outportb (port data : Nat) : InterruptTrace H :=
  { effects := [.outportb port data], returns := true }

def callHandler (intNo : Nat) (handlers : InterruptHandlers H) : InterruptTrace H :=
  match handlers intNo with
  | some handler => { effects := [.call handler], returns := true }
  | none => { effects := [], returns := true }

def isrHandler (intNo : Nat) (handlers : InterruptHandlers H) : InterruptTrace H :=
  (kpanic (exceptionMessages.getD intNo "")).andThen (callHandler intNo handlers)

def irqHandler (intNo : Nat) (handlers : InterruptHandlers H) : InterruptTrace H :=
  let slave := if intNo ≥ 40 then outportb 0xA0 0x20 else { effects := [], returns := true }
  (slave.andThen (outportb 0x20 0x20)).andThen (callHandler intNo handlers)

def registerInterruptHandler (n : UInt8) (handler : Option H) (handlers : InterruptHandlers H) :
    InterruptHandlers H :=
  Function.update handlers n.toNat handler

def unregisterInterruptHandler (n : UInt8) (handlers : InterruptHandlers H) :
    InterruptHandlers H :=
  Function.update handlers n.toNat none

-- kernel/interrupt.asm: the stubs of the vectors 0 to 31 call `isr_handler`, the others `irq_handler`
def interrupt (intNo : Nat) (handlers : InterruptHandlers H) : InterruptTrace H :=
  if intNo < 32 then isrHandler intNo handlers else irqHandler intNo handlers

end GekonOS
