import GekonOS.Kernel.Keyboard
import GekonOS.Shared.Loop
import Mathlib.Data.List.TakeWhile

set_option autoImplicit false

namespace GekonOS

open Loop

-- an access outside the object it is meant for, or a loop that was cut off
inductive Fault where
  | outside
  | outOfFuel
deriving DecidableEq, Repr

/-- The bytes in front of the terminator of a C string. -/
structure CString where
  bytes : List UInt8
  nonzero : ∀ b ∈ bytes, b ≠ 0

-- `str[i]`; the terminator is the last byte that may be read
def CString.charAt (str : CString) (i : Nat) : Except Fault UInt8 :=
  if within : i < str.bytes.length then .ok str.bytes[i]
  else if i = str.bytes.length then .ok 0 else .error .outside

-- the C string at the start of `bytes`
def CString.ofBytes (bytes : List UInt8) : CString :=
  { bytes := bytes.takeWhile (· ≠ 0)
    nonzero := fun _ member => by simpa using List.mem_takeWhile_imp member }

def CString.ofString (text : String) : CString := CString.ofBytes (text.toList.map chr)

def toupper (c : UInt8) : UInt8 := if chr 'a' ≤ c ∧ c ≤ chr 'z' then c - 32 else c

def digitChar (remainder : Nat) : UInt8 :=
  if remainder < 10 then UInt8.ofNat remainder + chr '0'
  else UInt8.ofNat remainder + chr 'a' - 10

-- carries `value` and the bytes of `str`
def itoaDigits (divisor : Nat) (value : Int) (str : List UInt8) :
    Except Fault (Int × List UInt8) :=
  whileLoop .outOfFuel
    (fun s => .ok (decide (s.1 > 0)))
    (fun s => .ok (s.1 / divisor, s.2 ++ [digitChar (s.1 % divisor).toNat]))
    33 (value, str)

/-- The string `itoa` leaves in `str`, least digit first until the last line turns it around. -/
def itoa (value : Int) (base : Nat) : Except Fault (List UInt8) :=
  if base ≠ 2 ∧ base ≠ 10 ∧ base ≠ 16 then .ok []
  else do
    let str := if value = 0 then [chr '0'] else []
    let isNegative : Bool := base = 10 ∧ value < 0
    -- the negation of the least `int` is that `int`
    let negated := if isNegative then Int.bmod (-value) (2 ^ 32) else value
    let divisor := if isNegative = false ∧ base = 16 then 16 else 10
    let (_, str) ← itoaDigits divisor negated str
    let str := if base = 10 ∧ isNegative then str ++ [chr '-'] else str
    let str := if base = 16 then str ++ [chr 'x', chr '0'] else str
    -- on an empty string `i - 1` wraps
    if str = [] then .error .outside else pure str.reverse

end GekonOS
