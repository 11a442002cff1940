import GekonOS.Kernel.Isr

set_option autoImplicit false

namespace GekonOS

variable {H : Type}

-- kernel/timer.c

-- `IRQ0` of include/isr.h
def irq0 : UInt8 := 32

-- `ticks` is its only state
def timerCallback (ticks : UInt64) : UInt64 := ticks + 1

/--
The handlers and the calls of `outportb`, with the port and the data. A frequency of 0 is divided
by.
-/
def timerInit (timerCallback : H) (frequency : UInt32) (handlers : InterruptHandlers H) :
    Option (InterruptHandlers H × List (UInt16 × UInt8)) :=
  let handlers := registerInterruptHandler irq0 (some timerCallback) handlers
  if frequency = 0 then none
  else
    let divisor := 1193180 / frequency
    let low := (divisor &&& 0xFF).toUInt8
    let high := (divisor >>> 8 &&& 0xFF).toUInt8
    some (handlers, [(0x43, 0x36), (0x40, low), (0x40, high)])

end GekonOS
