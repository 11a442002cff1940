set_option autoImplicit false

namespace GekonOS

-- include/pic.h

def icw1 : Nat := 0x11
def pic1Ctrl : Nat := 0x20
def pic2Ctrl : Nat := 0xA0
def pic1Data : Nat := 0x21
def pic2Data : Nat := 0xA1
def irq0Base : Nat := 0x20
def irq8Base : Nat := 0x28

-- pic.c

/-- The ports that `irq_remap` writes to and what it writes. -/
def irqRemap : List (Nat × Nat) := [
  (pic1Ctrl, icw1), (pic2Ctrl, icw1),
  (pic1Data, irq0Base), (pic2Data, irq8Base),
  (pic1Data, 0x04), (pic2Data, 0x02),
  (pic1Data, 0x01), (pic2Data, 0x01),
  (pic1Data, 0x00), (pic2Data, 0x00)]

end GekonOS
