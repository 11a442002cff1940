import Mathlib.Logic.Function.Basic

set_option autoImplicit false

/-!
# The graphics adapter of Bochs

Two ports lead to its registers. The mode can only be changed while the adapter is disabled.
-/

namespace BochsDisplay

structure Adapter where
  -- the register that the data port leads to
  index : UInt16
  xres : UInt16
  yres : UInt16
  bpp : UInt16
  enabled : Bool
  linear : Bool
  virtWidth : UInt16
  xOffset : UInt16
  yOffset : UInt16
  -- the linear frame buffer, by words of 32 bits
  memory : Nat → Nat

def maxXres : UInt16 := 2560
def maxYres : UInt16 := 1600

def depths : List UInt16 := [4, 8, 15, 16, 24, 32]

namespace Adapter

-- enabling shows the mode from the start of the memory, which is cleared unless bit 7 is set
def enable (a : Adapter) (value : UInt16) : Adapter :=
  { a with
    enabled := true
    linear := decide (value &&& 0x40 ≠ 0)
    virtWidth := a.xres
    xOffset := 0
    yOffset := 0
    memory := if value &&& 0x80 = 0 then fun _ => 0 else a.memory }

def setRegister (a : Adapter) (value : UInt16) : Adapter :=
  if a.index = 0x4 then
    if value &&& 0x01 = 0 then { a with enabled := false }
    else if a.enabled then { a with linear := decide (value &&& 0x40 ≠ 0) }
    else a.enable value
  else if a.enabled then a
  else if a.index = 0x1 ∧ value ≤ maxXres then { a with xres := value }
  else if a.index = 0x2 ∧ value ≤ maxYres then { a with yres := value }
  else if a.index = 0x3 ∧ value ∈ depths then { a with bpp := value }
  else a

def outportw (a : Adapter) (port value : UInt16) : Adapter :=
  if port = 0x01CE then { a with index := value }
  else if port = 0x01CF then a.setRegister value
  else a

def outports (a : Adapter) (writes : List (UInt16 × UInt16)) : Adapter :=
  writes.foldl (fun a write => a.outportw write.1 write.2) a

/-- The colour that is shown in a mode of 32 bits, from the left and from the top. -/
def shown (a : Adapter) (x y : Nat) : Option Nat :=
  if a.enabled ∧ a.linear ∧ a.bpp = 32 ∧ x < a.xres.toNat ∧ y < a.yres.toNat then
    some (a.memory ((y + a.yOffset.toNat) * a.virtWidth.toNat + (x + a.xOffset.toNat)))
  else none

end Adapter

end BochsDisplay
