import GekonOS.Kernel.Vbe
import Mathlib.Logic.Function.Basic

set_option autoImplicit false

namespace GekonOS

-- include/gui.h

def maxWindows : Nat := 100

-- `title` is left out: nothing writes it
structure Window where
  x : UInt16
  y : UInt16
  w : UInt16
  h : UInt16
  id : UInt16
  active : Bool
deriving DecidableEq

/-- The window table and the static counter of `GUI_CreateWindow`. -/
structure Gui where
  window : Vector Window maxWindows
  id : Int

-- the loop of `GUI_Init` over the table
def clearWindows (window : Vector Window maxWindows) : Vector Window maxWindows :=
  window.map fun entry => { entry with id := 0 }

-- the first unused slot, or `MAX_WINDOWS`
def findSlot (window : Vector Window maxWindows) : Nat :=
  window.toList.findIdx fun entry => decide (entry.id = 0)

-- `none` is a store to `window[i]` outside the table
def guiCreateWindow (x y w h : Int) (gui : Gui) : Option (Int × Gui) :=
  let i := findSlot gui.window
  if within : i < maxWindows then
    let window := gui.window.set i { gui.window[i] with
      id := UInt16.ofInt gui.id, x := UInt16.ofInt x, y := UInt16.ofInt y,
      w := UInt16.ofInt w, h := UInt16.ofInt h }
    let window := window.map fun entry => { entry with active := false }
    let window := window.set i { window[i] with active := true }
    some (gui.id, { window := window, id := gui.id + 1 })
  else none

-- the body of the loop of `GUI_DrawWindows`
def drawWindow (entry : Window) : List Pixel :=
  if entry.id ≠ 0 then
    let x : Int := entry.x.toNat
    let y : Int := entry.y.toNat
    let w : Int := entry.w.toNat
    let h : Int := entry.h.toNat
    -- the window and its title bar
    vbeDrawRect (asUnsigned x) (asUnsigned y) (asUnsigned w) (asUnsigned h) 0xD8D8D8 ++
    vbeDrawRect (asUnsigned x) (asUnsigned y) (asUnsigned w) (asUnsigned (y + 22))
      (if entry.active then 0x004C5D else 0xBBC2C2) ++
    -- the left, the right and the bottom border
    vbeDrawLine (asUnsigned x) (asUnsigned (y + 22)) (asUnsigned x) (asUnsigned h) 0xC4C5C5 ++
    vbeDrawLine (asUnsigned (w - 1)) (asUnsigned (y + 22)) (asUnsigned (w - 1)) (asUnsigned h)
      0xC4C5C5 ++
    vbeDrawLine (asUnsigned x) (asUnsigned h) (asUnsigned (w - 1)) (asUnsigned h) 0xC4C5C5
  else []

def guiDrawWindows (window : Vector Window maxWindows) : List Pixel :=
  window.toList.flatMap drawWindow

def guiDrawDesktop : List Pixel := vbeDrawRect 0 0 screenWidth screenHeight 0x5C788C

def guiDrawTaskBar : List Pixel := vbeDrawRect 0 0 screenWidth 25 0xBDBDBD

-- the lines of `mouse_t` as far as they are drawn
def mouseRows : List String := [
  "##00000000",
  "#1#0000000",
  "#11#000000",
  "#111#00000",
  "#1111#0000",
  "#11111#000",
  "#111111#00",
  "#1111111#0",
  "#11111111#",
  "#11111####",
  "#11#11#000",
  "#1#0#11#00",
  "##00#11#00",
  "00000#11#0",
  "00000#11#0",
  "000000##00"]

-- the string goes on behind each line break with a blank and the indentation of the next line
def mouseT : List Char :=
  "\n      ".toList.intercalate (mouseRows.map String.toList) ++ ['\n']

-- carries `x` and `y`; the characters are those from `mouse_t[i]` on
def drawMouseLoop : List Char → Nat → Nat → List Pixel
  | [], _, _ => []
  | c :: rest, x, y =>
    if c = '1' then { x := x + 80, y := y + 80, rgbColor := 0x000000 } ::
      drawMouseLoop rest (x + 1) y
    else if c = '#' then { x := x + 80, y := y + 80, rgbColor := 0xFFFFFF } ::
      drawMouseLoop rest (x + 1) y
    else if c = '0' then drawMouseLoop rest (x + 1) y
    else if c = '\n' then drawMouseLoop rest 1 (y + 1)
    else drawMouseLoop rest x y

def guiDrawMouse : List Pixel := drawMouseLoop mouseT 1 1

-- one round of the loop of `GUI_Init`
def guiRound (window : Vector Window maxWindows) : List Pixel :=
  guiDrawDesktop ++ guiDrawTaskBar ++ guiDrawWindows window ++ guiDrawMouse

/-- `GUI_Init` between the video mode and its loop. -/
def guiInitWindows (gui : Gui) : Option Gui := do
  let gui := { gui with window := clearWindows gui.window }
  let (_, gui) ← guiCreateWindow 160 160 480 380 gui
  let (_, gui) ← guiCreateWindow 200 200 520 420 gui
  pure gui

end GekonOS
