import GekonOS.Kernel.Stdlib
import Mathlib.Logic.Function.Basic

set_option autoImplicit false

namespace GekonOS

open Loop

/-- The bytes from a pointer on, and the indices read and written so far. -/
structure CharBuffer where
  bytes : Nat → UInt8
  reads : List Nat
  writes : List Nat

namespace CharBuffer

def fresh (bytes : Nat → UInt8) : CharBuffer := { bytes := bytes, reads := [], writes := [] }

def load (i : Nat) (str : CharBuffer) : UInt8 × CharBuffer :=
  (str.bytes i, { str with reads := str.reads ++ [i] })

def store (i : Nat) (c : UInt8) (str : CharBuffer) : CharBuffer :=
  { str with bytes := Function.update str.bytes i c, writes := str.writes ++ [i] }

end CharBuffer

-- `value`, the `uint8_t` `i` and the buffer
structure ItoaState where
  value : Int
  i : Nat
  str : CharBuffer

-- `str[i++] = c`
def ItoaState.push (c : UInt8) (s : ItoaState) : ItoaState :=
  { s with i := (s.i + 1) % 256, str := s.str.store s.i c }

def itoaDigitLoop (divisor : Nat) (s : ItoaState) : Except Fault ItoaState :=
  whileLoop .outOfFuel
    (fun s => .ok (decide (s.value > 0)))
    (fun s => .ok { s.push (digitChar (s.value % divisor).toNat) with value := s.value / divisor })
    33 s

-- `tmp = str[j]; str[j] = str[i]; str[i] = tmp`
def swapChars (i j : Nat) (str : CharBuffer) : CharBuffer :=
  let (tmp, str) := str.load j
  let (c, str) := str.load i
  (str.store j c).store i tmp

-- carries the `uint8_t` `i` and `j`, and the buffer
def itoaReverse (i : Nat) (str : CharBuffer) : Except Fault (Nat × Nat × CharBuffer) :=
  whileLoop .outOfFuel
    (fun s => .ok (decide (s.2.1 < s.1)))
    (fun s => .ok ((s.1 + 255) % 256, (s.2.1 + 1) % 256, swapChars s.1 s.2.1 s.2.2))
    256 (i, 0, str)

/-- `itoa` with every access to `str`. -/
def itoaBuffer (value base : Int) (str : CharBuffer) : Except Fault CharBuffer :=
  if base ≠ 2 ∧ base ≠ 10 ∧ base ≠ 16 then .ok (str.store 0 0)
  else do
    let s : ItoaState := { value := value, i := 0, str := str }
    let s := if value = 0 then s.push (chr '0') else s
    let isNegative : Bool := base = 10 ∧ value < 0
    let s := { s with value := if isNegative then Int.bmod (-value) (2 ^ 32) else value }
    let divisor := if isNegative = false ∧ base = 16 then 16 else 10
    let s ← itoaDigitLoop divisor s
    let s := if base = 10 ∧ isNegative then s.push (chr '-') else s
    let s := if base = 16 then (s.push (chr 'x')).push (chr '0') else s
    -- `i - 1` as a `uint8_t`
    let (_, _, str) ← itoaReverse ((s.i + 255) % 256) (s.str.store s.i 0)
    pure str

-- `while((*dest++ = *src++));`, from index `n` on
def strcpyFrom (n : Nat) (dest : CharBuffer) : List UInt8 → CharBuffer
  | [] => dest.store n 0
  | c :: rest => strcpyFrom (n + 1) (dest.store n c) rest

def strcpy (dest : CharBuffer) (src : CString) : CharBuffer := strcpyFrom 0 dest src.bytes

end GekonOS
