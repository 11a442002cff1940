import GekonOS.Kernel.Stdlib
import Mathlib.Logic.Function.Basic

set_option autoImplicit false

namespace GekonOS

open Loop

def fbCommandPort : Nat := 0x3D4
def fbDataPort : Nat := 0x3D5
def fbHighByteCommand : Nat := 14
def fbLowByteCommand : Nat := 15

/-- The video memory from `vidptr` on, the globals of the console and the bytes sent to its ports. -/
structure Video where
  vid : Nat → Nat
  cursorX : Nat
  cursorY : Nat
  attr : Nat
  ports : List (Nat × Nat)

def colorRed : UInt8 := 4
def colorGreen : UInt8 := 2
def colorLightGrey : UInt8 := 7

-- `c | (attr << 8)` as a 16-bit cell; a `char` is signed
def charCell (c : UInt8) (attr : Nat) : Nat :=
  ((if c.toNat < 128 then c.toNat else 0xFF00 + c.toNat) ||| attr <<< 8) % 65536

def blankCell (attr : Nat) : Nat := (32 ||| attr <<< 8) % 65536

-- the writes of `MoveCursor` for one location
def cursorWrites (location : Nat) : List (Nat × Nat) := [
  (fbCommandPort, fbHighByteCommand), (fbDataPort, location >>> 8 &&& 0xFF),
  (fbCommandPort, fbLowByteCommand), (fbDataPort, location &&& 0xFF)]

def moveCursor (v : Video) : Video :=
  { v with ports := v.ports ++ cursorWrites (v.cursorY * 80 + v.cursorX) }

def clearScreen (v : Video) : Video :=
  let blank := blankCell v.attr
  let vid := (List.range (80 * 25)).foldl (fun vid i => Function.update vid i blank) v.vid
  moveCursor { v with vid := vid, cursorX := 0, cursorY := 0 }

def scrollScreen (v : Video) : Video :=
  let blank := blankCell v.attr
  if v.cursorY ≥ 25 then
    let vid := (List.range (24 * 80)).foldl
      (fun vid i => Function.update vid i (vid (i + 80))) v.vid
    let vid := (List.range 80).foldl
      (fun vid i => Function.update vid (24 * 80 + i) blank) vid
    { v with vid := vid, cursorY := 24 }
  else v

def setColor (color : UInt8) (v : Video) : Video := { v with attr := color.toNat % 16 }

/-- What `va_arg` finds: the `n`-th argument as an `int`, and as a pointer to a string. -/
structure Varargs where
  int : Nat → BitVec 32
  string : Nat → CString

def noArgs : Varargs := { int := fun _ => 0, string := fun _ => ⟨[], by simp⟩ }

-- `char buffer[20]`; the terminator takes one byte
def toBuffer (s : List UInt8) : Except Fault (List UInt8) :=
  if s.length < 20 then .ok s else .error .outside

-- the loops that write `buffer` from the cursor on
def putBuffer (buffer : List UInt8) (v : Video) : Video :=
  let vid := buffer.zipIdx.foldl
    (fun vid c => Function.update vid (v.cursorY * 80 + v.cursorX + c.2) (charCell c.1 v.attr)) v.vid
  { v with vid := vid, cursorX := (v.cursorX + buffer.length) % 256 }

def putChar (c : UInt8) (v : Video) : Video :=
  { v with
    vid := Function.update v.vid (v.cursorY * 80 + v.cursorX) (charCell c v.attr)
    cursorX := (v.cursorX + 1) % 256 }

-- `%X` leaves the two bytes of `0x` alone
def upperDigits (buffer : List UInt8) : List UInt8 :=
  buffer.zipIdx.map fun c => if c.2 > 1 then toupper c.1 else c.1

-- `i`, the number of arguments taken, and the console
structure Printing where
  i : Nat
  taken : Nat
  video : Video

-- the `case '%'` of `kprintf`
def directive (str : CString) (args : Varargs) (p : Printing) : Except Fault Printing := do
  let letter ← str.charAt (p.i + 1)
  if letter = chr 'd' then
    let buffer ← toBuffer (← itoa (args.int p.taken).toInt 10)
    pure { i := p.i + 1, taken := p.taken + 1, video := putBuffer buffer p.video }
  else if letter = chr 'c' then
    pure { i := p.i + 1, taken := p.taken + 1,
           video := putChar (UInt8.ofNat (args.int p.taken).toNat) p.video }
  else if letter = chr 's' then
    let buffer ← toBuffer (args.string p.taken).bytes
    pure { i := p.i + 1, taken := p.taken + 1, video := putBuffer buffer p.video }
  else if letter = chr 'x' then
    let buffer ← toBuffer (← itoa (args.int p.taken).toInt 16)
    pure { i := p.i + 1, taken := p.taken + 1, video := putBuffer buffer p.video }
  else if letter = chr 'X' then
    let buffer ← toBuffer (← itoa (args.int p.taken).toInt 16)
    pure { i := p.i + 1, taken := p.taken + 1, video := putBuffer (upperDigits buffer) p.video }
  else pure p

-- the test at the end of each turn of the loop
def wrapLine (v : Video) : Video :=
  if v.cursorX ≥ 80 then { v with cursorX := 0, cursorY := (v.cursorY + 1) % 256 } else v

def kprintfTurn (str : CString) (args : Varargs) (p : Printing) : Except Fault Printing := do
  let c ← str.charAt p.i
  let p ←
    if c = chr '\n' then
      pure { p with video := { p.video with cursorX := 0, cursorY := (p.video.cursorY + 1) % 256 } }
    else if c = chr '\t' then
      pure { p with video := { p.video with cursorX := ((p.video.cursorX + 8) &&& 0xFFFFFFF8) % 256 } }
    else if c = chr '%' then directive str args p
    else pure { p with video := putChar c p.video }
  pure { p with i := p.i + 1, video := wrapLine p.video }

def kprintf (str : CString) (args : Varargs) (v : Video) : Except Fault Video := do
  let p ← whileLoop .outOfFuel
    (fun p => do
      let c ← str.charAt p.i
      pure (decide (c ≠ 0)))
    (kprintfTurn str args)
    (str.bytes.length + 1) { i := 0, taken := 0, video := v }
  pure (moveCursor (scrollScreen p.video))

/-- `Video_Init`; the compiler fills in the date and the time. -/
def videoInit (date time : CString) (v : Video) : Except Fault Video := do
  let v := clearScreen { v with attr := 7 }
  let v ← kprintf (CString.ofString "Starting GekonOS...\n") noArgs v
  let build := { noArgs with string := fun n => if n = 0 then date else time }
  let v ← kprintf (CString.ofString "(build: %s %s)\n\n") build v
  kprintf (CString.ofString "Initializing Video Text Mode...\n") noArgs v

end GekonOS
