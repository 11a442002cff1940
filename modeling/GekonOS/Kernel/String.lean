import GekonOS.Kernel.Stdlib
import Mathlib.Logic.Function.Basic

set_option autoImplicit false

namespace GekonOS.Libc

-- libc/string.c; a loop that goes on for too long is cut off

abbrev Memory : Type := BitVec 32 → UInt8

-- a `char` as an `int`
def charValue (c : UInt8) : Int := if c < 128 then c.toNat else (c.toNat : Int) - 256

-- carries `str` and `len`
def strlenLoop (m : Memory) : Nat → BitVec 32 → Nat → Except Fault Nat
  | 0, _, _ => .error .outOfFuel
  | fuel + 1, str, len =>
    if m str ≠ 0 then strlenLoop m fuel (str + 1) (len + 1) else .ok len

def strlen (m : Memory) (fuel : Nat) (str : BitVec 32) : Except Fault Nat :=
  strlenLoop m fuel str 0

def strcmp (m : Memory) : Nat → BitVec 32 → BitVec 32 → Except Fault Int
  | 0, _, _ => .error .outOfFuel
  | fuel + 1, s1, s2 =>
    if m s1 ≠ 0 ∧ m s2 ≠ 0 ∧ m s1 = m s2 then strcmp m fuel (s1 + 1) (s2 + 1)
    else .ok (charValue (m s1) - charValue (m s2))

-- `while((*dest++ = *src++));`
def strcpyLoop : Nat → BitVec 32 → BitVec 32 → Memory → Except Fault Memory
  | 0, _, _, _ => .error .outOfFuel
  | fuel + 1, dest, src, m =>
    let c := m src
    let m := Function.update m dest c
    if c ≠ 0 then strcpyLoop fuel (dest + 1) (src + 1) m else .ok m

def strcpy (fuel : Nat) (dest src : BitVec 32) (m : Memory) :
    Except Fault (BitVec 32 × Memory) := do
  let p := dest
  let m ← strcpyLoop fuel dest src m
  pure (p, m)

def append (fuel : Nat) (s : BitVec 32) (n : UInt8) (m : Memory) : Except Fault Memory := do
  let len ← strlen m fuel s
  let m := Function.update m (s + BitVec.ofNat 32 len) n
  pure (Function.update m (s + BitVec.ofNat 32 len + 1) 0)

-- carries `temp`; `len` counts down
def memset (val : UInt8) : Nat → BitVec 32 → Memory → Memory
  | 0, _, m => m
  | len + 1, temp, m => memset val len (temp + 1) (Function.update m temp val)

-- carries `i`; `left` is what `i` is short of `nbytes`
def memcpyLoop (source dest : BitVec 32) : Nat → BitVec 32 → Memory → Memory
  | 0, _, m => m
  | left + 1, i, m =>
    memcpyLoop source dest left (i + 1) (Function.update m (dest + i) (m (source + i)))

def memcpy (source dest : BitVec 32) (nbytes : Int) (m : Memory) : Memory :=
  memcpyLoop source dest nbytes.toNat 0 m

end GekonOS.Libc
