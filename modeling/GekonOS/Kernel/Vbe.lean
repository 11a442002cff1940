import GekonOS.Shared.Word32

set_option autoImplicit false

namespace GekonOS

-- include/vbe.h

def screenWidth : Nat := 800
def screenHeight : Nat := 600
def screenDepth : Nat := 32

-- a value stored to an `int`, and an `int` passed as `uint32_t`
def asInt (n : Int) : Int := Int.bmod n (2 ^ 32)
def asUnsigned (n : Int) : Nat := (n % 2 ^ 32).toNat

-- libc/math.c
def abs (n : Int) : Int := if n > 0 then n else asInt (-n)

def vbeBuffer : Nat := 0xFD000000

/-- A call of `VBE_DrawPixel`. -/
structure Pixel where
  x : Nat
  y : Nat
  rgbColor : Nat
deriving DecidableEq, Repr

-- the element of `vbeBuffer` that a call stores to
def Pixel.pos (pixel : Pixel) : Nat :=
  Word32.add (Word32.mul pixel.y screenWidth) pixel.x

def vbeDrawPixel (buffer : Nat → Nat) (pixel : Pixel) : Nat → Nat :=
  Function.update buffer pixel.pos pixel.rgbColor

-- the calls in the order they are made; `ty++` and `tx++` stay at most `y2` and `x2`
def vbeDrawRect (x y x2 y2 rgbColor : Nat) : List Pixel :=
  (List.range' y (y2 - y)).flatMap fun ty =>
    (List.range' x (x2 - x)).map fun tx => { x := tx, y := ty, rgbColor := rgbColor }

/-- The variables of `VBE_DrawLine` that its loop only reads. -/
structure LineSetup where
  dx1 : Int
  dy1 : Int
  dx2 : Int
  dy2 : Int
  m : Int
  n : Int

def lineSetup (x1 y1 x2 y2 : Nat) : LineSetup :=
  let sx := asInt ((x2 : Int) - x1)
  let sy := asInt ((y2 : Int) - y1)
  let dx1 := if sx > 0 then 1 else if sx < 0 then -1 else 0
  let dy1 := if sy > 0 then 1 else if sy < 0 then -1 else 0
  let m := abs sx
  let n := abs sy
  if m < n then { dx1, dy1, dx2 := 0, dy2 := dy1, m := abs sy, n := abs sx }
  else { dx1, dy1, dx2 := dx1, dy2 := 0, m, n }

-- `while(cnt--)`, with `x`, `y` and `k` carried along
def drawLineLoop (setup : LineSetup) (rgbColor : Nat) : Nat → Int → Int → Int → List Pixel
  | 0, _, _, _ => []
  | cnt + 1, x, y, k =>
    let pixel := { x := asUnsigned x, y := asUnsigned y, rgbColor := rgbColor }
    let k := asInt (k + setup.n)
    if k < setup.m then
      pixel :: drawLineLoop setup rgbColor cnt (asInt (x + setup.dx2)) (asInt (y + setup.dy2)) k
    else
      pixel :: drawLineLoop setup rgbColor cnt (asInt (x + setup.dx1)) (asInt (y + setup.dy1))
        (asInt (k - setup.m))

def vbeDrawLine (x1 y1 x2 y2 rgbColor : Nat) : List Pixel :=
  let setup := lineSetup x1 y1 x2 y2
  drawLineLoop setup rgbColor (asUnsigned (setup.m + 1)) (asInt x1) (asInt y1) 0

-- the calls of `outportw`, with the port and the data
def vbeWrite (index value : UInt16) : List (UInt16 × UInt16) := [(0x01CE, index), (0x01CF, value)]

def vbeSetVideoMode (width height bpp : UInt16) : List (UInt16 × UInt16) :=
  vbeWrite 0x4 0x00 ++ vbeWrite 0x1 width ++ vbeWrite 0x2 height ++ vbeWrite 0x3 bpp ++
    vbeWrite 0x4 (0x01 ||| 0x40)

end GekonOS
