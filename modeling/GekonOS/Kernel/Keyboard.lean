import GekonOS.Kernel.Queue

set_option autoImplicit false

namespace GekonOS

-- include/keyboard.h

def F1 : UInt8 := 0x80
def F2 : UInt8 := F1 + 1
def F3 : UInt8 := F2 + 1
def F4 : UInt8 := F3 + 1
def F5 : UInt8 := F4 + 1
def F6 : UInt8 := F5 + 1
def F7 : UInt8 := F6 + 1
def F8 : UInt8 := F7 + 1
def F9 : UInt8 := F8 + 1
def F10 : UInt8 := F9 + 1
def F11 : UInt8 := F10 + 1
def F12 : UInt8 := F11 + 1
def INS : UInt8 := 0x8C
def DEL : UInt8 := INS + 1
def HOME : UInt8 := DEL + 1
def END : UInt8 := HOME + 1
def PGUP : UInt8 := END + 1
def PGDN : UInt8 := PGUP + 1
def LEFT : UInt8 := 0x92
def UP : UInt8 := LEFT + 1
def DOWN : UInt8 := UP + 1
def RT : UInt8 := DOWN + 1
def SCROL : UInt8 := 0x96
def CAPS : UInt8 := SCROL + 1
def NUM : UInt8 := CAPS + 1
def SHIFT : UInt8 := 0x99
def ALT : UInt8 := SHIFT + 1
def CTRL : UInt8 := ALT + 1

def raw1LeftCtrl : Nat := 0x1D
def raw1RightCtrl : Nat := 0x1D
def raw1LeftShift : Nat := 0x2A
def raw1RightShift : Nat := 0x36
def raw1LeftAlt : Nat := 0x38
def raw1RightAlt : Nat := 0x38
def raw1CapsLock : Nat := 0x3A
def raw1NumLock : Nat := 0x45
def raw1ScrollLock : Nat := 0x46

def kbdMetaAlt : BitVec 16 := 0x0200
def kbdMetaCtrl : BitVec 16 := 0x0400
def kbdMetaShift : BitVec 16 := 0x0800
def kbdMetaCaps : BitVec 16 := 0x1000
def kbdMetaNum : BitVec 16 := 0x2000
def kbdMetaScrl : BitVec 16 := 0x4000

def chr (c : Char) : UInt8 := UInt8.ofNat c.toNat

-- the quotation marks and the backtick stand by code
def normalMap : List UInt8 := [
  0, 0x1B, chr '1', chr '2', chr '3', chr '4', chr '5', chr '6',
  chr '7', chr '8', chr '9', chr '0', chr '-', chr '=', 8, chr '\t',
  chr 'q', chr 'w', chr 'e', chr 'r', chr 't', chr 'y', chr 'u', chr 'i',
  chr 'o', chr 'p', chr '[', chr ']', chr '\n', CTRL, chr 'a', chr 's',
  chr 'd', chr 'f', chr 'g', chr 'h', chr 'j', chr 'k', chr 'l', chr ';',
  0x27, 0x60, SHIFT, chr '#', chr 'z', chr 'x', chr 'c', chr 'v',
  chr 'b', chr 'n', chr 'm', chr ',', chr '.', chr '/', SHIFT, 0,
  ALT, chr ' ', CAPS, F1, F2, F3, F4, F5,
  F6, F7, F8, F9, F10, NUM, SCROL, HOME,
  UP, PGUP, chr '-', LEFT, chr '5', RT, chr '+', END,
  DOWN, PGDN, INS, DEL, 0, 0, chr '\\', F11,
  F12]

-- the row of code 0x48 has seven entries, so each later one stands one code too early
def shiftMap : List UInt8 := [
  0, 0x1B, chr '!', chr '@', chr '#', chr '$', chr '%', chr '^',
  chr '&', chr '*', chr '(', chr ')', chr '_', chr '+', 8, chr '\t',
  chr 'Q', chr 'W', chr 'E', chr 'R', chr 'T', chr 'Y', chr 'U', chr 'I',
  chr 'O', chr 'P', chr '{', chr '}', chr '\n', 0, chr 'A', chr 'S',
  chr 'D', chr 'F', chr 'G', chr 'H', chr 'J', chr 'K', chr 'L', chr ':',
  0x22, chr '~', 0, chr '|', chr 'Z', chr 'X', chr 'C', chr 'V',
  chr 'B', chr 'N', chr 'M', chr '<', chr '>', chr '?', 0, 0,
  0, chr ' ', 0, F1, F2, F3, F4, F5,
  F6, F7, F8, F9, F10, 0, 0, HOME,
  UP, PGUP, LEFT, chr '5', RT, chr '+', END,
  DOWN, PGDN, INS, DEL, 0, 0, 0, F11, F12]

/-- The two static variables of `keyboard_callback` and its queue. -/
structure Keyboard where
  kbdStatus : BitVec 16
  sawBreakCode : BitVec 16
  kbdBuffer : FifoQueue

def Keyboard.initial : Keyboard :=
  { kbdStatus := 0, sawBreakCode := 0, kbdBuffer := declareFifoQueue 64 }

inductive KeyboardEffect where
  | writeKbd (adr data : Nat)
  | kprintf (text : String)
  -- a call of `fifo_insert` and its result
  | fifoInsert (key : UInt8) (result : Int)
deriving DecidableEq

-- the code at the label `LEDS`
def writeLeds (k : Keyboard) : Keyboard × List KeyboardEffect :=
  let temp := 0
  let temp := if k.kbdStatus &&& kbdMetaScrl ≠ 0 then temp ||| 1 else temp
  let temp := if k.kbdStatus &&& kbdMetaNum ≠ 0 then temp ||| 2 else temp
  let temp := if k.kbdStatus &&& kbdMetaCaps ≠ 0 then temp ||| 4 else temp
  (k, [.writeKbd 0x60 0xED, .writeKbd 0x60 temp])

-- `temp` and `converted`, unless the function returns before they are used
def translate (kbdStatus : BitVec 16) (code : Nat) : Option (UInt8 × UInt8) :=
  if kbdStatus &&& kbdMetaShift ≠ 0 then
    if code ≥ shiftMap.length then none
    else
      let temp := shiftMap.getD code 0
      if temp = 0 then none
      else
        let temp := if kbdStatus &&& kbdMetaCaps ≠ 0 then
          if temp ≥ chr 'A' ∧ temp ≤ chr 'Z' then normalMap.getD code 0 else temp
          else temp
        some (temp, shiftMap.getD code 0)
  else
    if code ≥ normalMap.length then none
    else
      let temp := normalMap.getD code 0
      if temp = 0 then none
      else
        let temp := if kbdStatus &&& kbdMetaCaps ≠ 0 then
          if temp ≥ chr 'a' ∧ temp ≤ chr 'z' then shiftMap.getD code 0 else temp
          else temp
        some (temp, normalMap.getD code 0)

-- what follows the translation
def enqueue (code : Nat) (temp converted : UInt8) (k : Keyboard) :
    Keyboard × List KeyboardEffect :=
  let printed := if k.kbdStatus &&& kbdMetaCtrl ≠ 0 ∧ k.kbdStatus &&& kbdMetaAlt ≠ 0 ∧
    temp = DEL then [.kprintf "\nrebooting..."] else []
  if code > 0x58 then (k, printed)
  else if converted ≥ F1 ∧ converted ≤ F11 then (k, printed)
  else
    let (result, fifo) := fifoInsert k.kbdBuffer converted
    ({ k with kbdBuffer := fifo }, printed ++ [.fifoInsert converted result])

/-- One interrupt; `scancode` is the byte read from port 0x60. -/
def keyboardCallback (scancode : UInt8) (k : Keyboard) : Keyboard × List KeyboardEffect :=
  let code := scancode.toNat
  let sawBreakCode := if code ≥ 0x80 then 1 else k.sawBreakCode
  let code := if code ≥ 0x80 then code &&& 0x7F else code
  if sawBreakCode ≠ 0 then
    let kbdStatus :=
      if code = raw1LeftAlt ∨ code = raw1RightAlt then k.kbdStatus &&& ~~~kbdMetaAlt
      else if code = raw1LeftCtrl ∨ code = raw1RightCtrl then k.kbdStatus &&& ~~~kbdMetaCtrl
      else if code = raw1LeftShift ∨ code = raw1RightShift then k.kbdStatus &&& ~~~kbdMetaShift
      else k.kbdStatus
    ({ k with kbdStatus := kbdStatus, sawBreakCode := 0 }, [])
  else if code = raw1LeftAlt ∨ code = raw1RightAlt then
    ({ k with kbdStatus := k.kbdStatus ||| kbdMetaAlt, sawBreakCode := sawBreakCode }, [])
  else if code = raw1LeftCtrl ∨ code = raw1RightCtrl then
    ({ k with kbdStatus := k.kbdStatus ||| kbdMetaCtrl, sawBreakCode := sawBreakCode }, [])
  else if code = raw1LeftShift ∨ code = raw1RightShift then
    ({ k with kbdStatus := k.kbdStatus ||| kbdMetaShift, sawBreakCode := sawBreakCode }, [])
  else if code = raw1ScrollLock then
    writeLeds { k with kbdStatus := k.kbdStatus ^^^ kbdMetaScrl, sawBreakCode := sawBreakCode }
  else if code = raw1NumLock then
    writeLeds { k with kbdStatus := k.kbdStatus ^^^ kbdMetaNum, sawBreakCode := sawBreakCode }
  else if code = raw1CapsLock then
    writeLeds { k with kbdStatus := k.kbdStatus ^^^ kbdMetaCaps, sawBreakCode := sawBreakCode }
  else
    let k := { k with sawBreakCode := sawBreakCode }
    match translate k.kbdStatus code with
    | none => (k, [])
    | some (temp, converted) => enqueue code temp converted k

-- the loop of `write_kbd` over what port 0x64 answers, to the `timeout` that is left
def writeKbdLoop (stat : Nat → UInt8) : Nat → Nat
  | 0 => 0
  | timeout + 1 =>
    if stat 0 &&& 2 = 0 then timeout + 1 else writeKbdLoop (fun i => stat (i + 1)) timeout

/-- The writes to the ports; there is none when the controller stays busy for too long. -/
def writeKbd (stat : Nat → UInt8) (adr data : Nat) : List (Nat × Nat) :=
  if writeKbdLoop stat 500000 ≠ 0 then [(adr, data)] else []

def kbdKeysAvailable (k : Keyboard) : Nat := fifoEmpty k.kbdBuffer

def kbdGetKey (k : Keyboard) : UInt8 × Keyboard :=
  let (_, key, fifo) := fifoGet k.kbdBuffer
  (key.getD 0, { k with kbdBuffer := fifo })

end GekonOS
