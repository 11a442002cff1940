import GekonOS.Gui.DrawWindows
import GekonOS.Shared.BochsDisplay
import GekonOS.Shared.Painter

set_option autoImplicit false

namespace GekonOS.Scene

open DrawLine DrawWindows Painter BochsDisplay

/-!
# What the screen shows

The layers of the desktop from the front: the mouse, the windows by their slots, the task bar.
-/

/-! ## The scene -/

def mouseColour (c : Char) : Option Nat :=
  if c = '1' then some 0x000000 else if c = '#' then some 0xFFFFFF else none

def rowAt (row : List Char) (left x : Nat) : Option Nat :=
  if left ≤ x then row[x - left]?.bind mouseColour else none

def rowsAt (rows : List (List Char)) (left top x y : Nat) : Option Nat :=
  if top ≤ y then rows[y - top]?.bind fun row => rowAt row left x else none

-- the borders, the title bar and the window
def windowAt (entry : Window) (x y : Nat) : Option Nat :=
  if entry.id = 0 then none
  else if (x = entry.x.toNat ∨ x + 1 = entry.w.toNat) ∧ entry.y.toNat + 22 ≤ y ∧ y ≤ entry.h.toNat ∨
      entry.x.toNat ≤ x ∧ x < entry.w.toNat ∧ y = entry.h.toNat then some 0xC4C5C5
  else if entry.x.toNat ≤ x ∧ x < entry.w.toNat ∧ entry.y.toNat ≤ y ∧ y < entry.h.toNat then
    some (if y < entry.y.toNat + 22 then if entry.active then 0x004C5D else 0xBBC2C2 else 0xD8D8D8)
  else none

def windowsAt (window : Vector Window maxWindows) (x y : Nat) : Option Nat :=
  window.toList.reverse.findSome? fun entry => windowAt entry x y

def sceneAt (window : Vector Window maxWindows) (x y : Nat) : Nat :=
  ((rowsAt (mouseRows.map String.toList) 81 81 x y).or
    ((windowsAt window x y).or (if y < 25 then some 0xBDBDBD else none))).getD 0x5C788C

/-! ## Layers of the frame buffer -/

def stores (pixels : List Pixel) : List (Nat × Nat) :=
  pixels.map fun pixel => (pixel.pos, pixel.rgbColor)

theorem stores_append (pixels more : List Pixel) :
    stores (pixels ++ more) = stores pixels ++ stores more := List.map_append

theorem foldl_vbeDrawPixel (pixels : List Pixel) (buffer : Nat → Nat) :
    pixels.foldl vbeDrawPixel buffer = paint (stores pixels) buffer := by
  unfold paint stores
  rw [List.foldl_map]
  rfl

-- a picture by columns and rows, as a layer of the frame buffer
def onScreen (picture : Nat → Nat → Option Nat) : Layer Nat Nat := fun pos =>
  if pos < 480000 then picture (pos % 800) (pos / 800) else none

-- the drawing is inside the screen and leaves the picture
def Shows (pixels : List Pixel) (picture : Nat → Nat → Option Nat) : Prop :=
  Puts (stores pixels) (onScreen picture)

def above (upper lower : Nat → Nat → Option Nat) (x y : Nat) : Option Nat :=
  (upper x y).or (lower x y)

variable {pixels more : List Pixel} {picture upper lower : Nat → Nat → Option Nat}

theorem Shows.append (first : Shows pixels lower) (second : Shows more upper) :
    Shows (pixels ++ more) (above upper lower) := by
  unfold Shows
  rw [stores_append]
  refine (Puts.append first second).congr fun pos => ?_
  unfold onTop onScreen above
  split <;> rfl

theorem Shows.congr (shows : Shows pixels lower)
    (same : ∀ x < 800, ∀ y < 600, lower x y = upper x y) : Shows pixels upper := by
  refine Puts.congr shows fun pos => ?_
  unfold onScreen
  split
  next inside => exact same _ (Nat.mod_lt _ (by decide)) _ (by omega)
  next => rfl

theorem Shows.uniform {colour : Nat} {P : Nat → Nat → Prop} [∀ x y, Decidable (P x y)]
    (colours : ∀ pixel ∈ pixels, pixel.rgbColor = colour)
    (inside : ∀ pixel ∈ pixels, pixel.x < 800 ∧ pixel.y < 600)
    (places : ∀ x < 800, ∀ y < 600, P x y ↔ ∃ pixel ∈ pixels, pixel.x = x ∧ pixel.y = y) :
    Shows pixels fun x y => if P x y then some colour else none := by
  have uniform : Puts (stores pixels)
      (plain (fun pos => pos < 480000 ∧ P (pos % 800) (pos / 800)) colour) :=
    Puts.uniform ?_ ?_
  · refine uniform.congr fun pos => ?_
    unfold plain onScreen
    by_cases small : pos < 480000
    · simp only [small, true_and, if_true]
    · simp only [small, false_and, if_false]
  · intro store member
    obtain ⟨pixel, drawn, rfl⟩ := List.mem_map.mp member
    exact colours pixel drawn
  · intro pos
    constructor
    · rintro ⟨small, holds⟩
      obtain ⟨pixel, drawn, column, row⟩ :=
        (places _ (Nat.mod_lt _ (by decide)) _ (by omega)).mp holds
      obtain ⟨hx, hy⟩ := inside pixel drawn
      refine ⟨_, List.mem_map_of_mem drawn, ?_⟩
      change pixel.pos = pos
      rw [pos_small (by omega) (by omega)]
      omega
    · rintro ⟨store, member, rfl⟩
      obtain ⟨pixel, drawn, rfl⟩ := List.mem_map.mp member
      obtain ⟨hx, hy⟩ := inside pixel drawn
      have at_ : pixel.pos = pixel.y * 800 + pixel.x := pos_small (by omega) (by omega)
      have column : pixel.pos % 800 = pixel.x := by omega
      have row : pixel.pos / 800 = pixel.y := by omega
      change pixel.pos < 480000 ∧ P (pixel.pos % 800) (pixel.pos / 800)
      rw [column, row]
      exact ⟨by omega, (places _ hx _ hy).mpr ⟨pixel, drawn, rfl, rfl⟩⟩

/-! ## Rectangles and borders -/

theorem mem_vbeDrawRect_iff {x y x2 y2 rgbColor : Nat} {pixel : Pixel} :
    pixel ∈ vbeDrawRect x y x2 y2 rgbColor ↔
      (x ≤ pixel.x ∧ pixel.x < x2) ∧ (y ≤ pixel.y ∧ pixel.y < y2) ∧ pixel.rgbColor = rgbColor := by
  obtain ⟨px, py, colour⟩ := pixel
  simp only [vbeDrawRect, List.mem_flatMap, List.mem_map, List.mem_range'_1, Pixel.mk.injEq]
  constructor
  · rintro ⟨ty, rows, tx, columns, rfl, rfl, rfl⟩
    omega
  · rintro ⟨columns, rows, rfl⟩
    exact ⟨py, by omega, px, by omega, rfl, rfl, rfl⟩

theorem vbeDrawRect_shows {x y x2 y2 : Nat} (rgbColor : Nat) (width : x2 ≤ 800)
    (height : y2 ≤ 600) : Shows (vbeDrawRect x y x2 y2 rgbColor) fun px py =>
      if (x ≤ px ∧ px < x2) ∧ y ≤ py ∧ py < y2 then some rgbColor else none := by
  apply Shows.uniform
  · intro pixel member
    exact (mem_vbeDrawRect_iff.mp member).2.2
  · intro pixel member
    obtain ⟨columns, rows, -⟩ := mem_vbeDrawRect_iff.mp member
    omega
  · intro px _ py _
    constructor
    · rintro ⟨columns, rows⟩
      exact ⟨⟨px, py, rgbColor⟩, mem_vbeDrawRect_iff.mpr ⟨columns, rows, rfl⟩, rfl, rfl⟩
    · rintro ⟨pixel, member, rfl, rfl⟩
      obtain ⟨columns, rows, -⟩ := mem_vbeDrawRect_iff.mp member
      exact ⟨columns, rows⟩

theorem mem_vbeDrawLine_iff {x1 y1 x2 y2 rgbColor : Nat} (small : Coordinates x1 y1 x2 y2)
    {pixel : Pixel} : pixel ∈ vbeDrawLine x1 y1 x2 y2 rgbColor ↔
      ∃ j ≤ longer x1 y1 x2 y2, pixel = pixelAt x1 y1 x2 y2 rgbColor j := by
  have line : DrawsLine x1 y1 x2 y2 rgbColor _ := vbeDrawLine_correct small
  rw [List.mem_iff_getElem?]
  constructor
  · rintro ⟨j, at_⟩
    have within : j ≤ longer x1 y1 x2 y2 := by
      obtain ⟨inside, -⟩ := List.getElem?_eq_some_iff.mp at_
      have := line.count
      omega
    exact ⟨j, within, Option.some.inj (at_.symm.trans (line.pixels j within))⟩
  · rintro ⟨j, within, rfl⟩
    exact ⟨j, line.pixels j within⟩

theorem pixelAt_colour (x1 y1 x2 y2 rgbColor j : Nat) :
    (pixelAt x1 y1 x2 y2 rgbColor j).rgbColor = rgbColor := by
  unfold pixelAt
  split <;> rfl

theorem vbeDrawLine_shows {x1 y1 x2 y2 : Nat} (rgbColor : Nat) (straight : x1 = x2 ∨ y1 = y2)
    (columns : x1 ≤ x2 ∧ x2 < 800) (rows : y1 ≤ y2 ∧ y2 < 600) :
    Shows (vbeDrawLine x1 y1 x2 y2 rgbColor) fun px py =>
      if (x1 ≤ px ∧ px ≤ x2) ∧ y1 ≤ py ∧ py ≤ y2 then some rgbColor else none := by
  have small : Coordinates x1 y1 x2 y2 := ⟨by omega, by omega, by omega, by omega⟩
  have inside (pixel : Pixel) (drawn : pixel ∈ vbeDrawLine x1 y1 x2 y2 rgbColor) :
      (x1 ≤ pixel.x ∧ pixel.x ≤ x2) ∧ y1 ≤ pixel.y ∧ pixel.y ≤ y2 := by
    obtain ⟨x, y⟩ := (vbeDrawLine_correct small).inside pixel drawn
    omega
  apply Shows.uniform
  · intro pixel drawn
    obtain ⟨j, -, rfl⟩ := (mem_vbeDrawLine_iff small).mp drawn
    exact pixelAt_colour ..
  · intro pixel drawn
    have := inside pixel drawn
    omega
  · intro px _ py _
    constructor
    · rintro ⟨hx, hy⟩
      refine ⟨pixelAt x1 y1 x2 y2 rgbColor (px - x1 + (py - y1)),
        (mem_vbeDrawLine_iff small).mpr ⟨_, ?_, rfl⟩, ?_⟩
      · unfold longer DrawLine.distance
        omega
      · have level : shorter x1 y1 x2 y2 = 0 := by
          unfold shorter DrawLine.distance
          omega
        simp only [pixelAt, level, Nat.mul_zero, Nat.zero_div]
        unfold DrawLine.distance toward
        split_ifs <;> simp only <;> omega
    · rintro ⟨pixel, drawn, rfl, rfl⟩
      exact inside pixel drawn

/-! ## Windows -/

variable {entry : Window}

theorem drawWindow_shows (fits : entry.id ≠ 0 → Fits entry ∧ entry.h.toNat < screenHeight) :
    Shows (drawWindow entry) (windowAt entry) := by
  by_cases unused : entry.id = 0
  · rw [drawWindow_unused unused]
    refine Puts.nil.congr fun pos => ?_
    simp only [onScreen, windowAt, unused, if_true, ite_self]
  · obtain ⟨fit, low⟩ := fits unused
    obtain ⟨hx, hw, hy, hh⟩ := fit.coordinates
    have column := fit.column
    have row := fit.row
    unfold screenHeight at low
    rw [drawWindow_used unused fit]
    have main := vbeDrawRect_shows (x := entry.x.toNat) (y := entry.y.toNat) 0xD8D8D8 hw hh
    have title := vbeDrawRect_shows (x := entry.x.toNat) (y := entry.y.toNat)
      (if entry.active then 0x004C5D else 0xBBC2C2) hw
      (show entry.y.toNat + 22 ≤ 600 by omega)
    have left := vbeDrawLine_shows 0xC4C5C5 (Or.inl (Eq.refl entry.x.toNat)) (by omega)
      (show entry.y.toNat + 22 ≤ entry.h.toNat ∧ entry.h.toNat < 600 by omega)
    have right := vbeDrawLine_shows 0xC4C5C5 (Or.inl (Eq.refl (entry.w.toNat - 1))) (by omega)
      (show entry.y.toNat + 22 ≤ entry.h.toNat ∧ entry.h.toNat < 600 by omega)
    have bottom := vbeDrawLine_shows 0xC4C5C5 (Or.inr (Eq.refl entry.h.toNat))
      (show entry.x.toNat ≤ entry.w.toNat - 1 ∧ entry.w.toNat - 1 < 800 by omega) (by omega)
    refine ((((main.append title).append left).append right).append bottom).congr ?_
    intro x _ y _
    simp only [above, windowAt, if_neg unused]
    split_ifs <;> first | rfl | omega

-- the window in the last slot is in front
theorem guiDrawWindows_shows {window : Vector Window maxWindows}
    (fits : ∀ entry ∈ window.toList, entry.id ≠ 0 → Fits entry ∧ entry.h.toNat < screenHeight) :
    Shows (guiDrawWindows window) (windowsAt window) := by
  have drawn : Puts (window.toList.flatMap fun entry => stores (drawWindow entry)) _ :=
    Puts.flatMap fun entry member => drawWindow_shows (fits entry member)
  unfold Shows guiDrawWindows stores
  rw [List.map_flatMap]
  refine drawn.congr fun pos => ?_
  unfold onScreen windowsAt
  by_cases small : pos < 480000
  · simp only [if_pos small]
  · simp only [if_neg small, List.findSome?_eq_none_iff, implies_true]

/-! ## The mouse -/

theorem rowAt_cons (c : Char) (row : List Char) (left x : Nat) :
    rowAt (c :: row) left x = if x = left then mouseColour c else rowAt row (left + 1) x := by
  unfold rowAt
  by_cases here : x = left
  · rw [if_pos here, here, if_pos (Nat.le_refl _), Nat.sub_self]
    rfl
  · rw [if_neg here]
    by_cases behind : left ≤ x
    · rw [if_pos behind, if_pos (by omega), show x - left = x - (left + 1) + 1 by omega]
      rfl
    · rw [if_neg behind, if_neg (by omega)]

theorem rowsAt_cons (row : List Char) (rows : List (List Char)) (left top x y : Nat) :
    rowsAt (row :: rows) left top x y =
      if y = top then rowAt row left x else rowsAt rows left (top + 1) x y := by
  unfold rowsAt
  by_cases here : y = top
  · rw [if_pos here, here, if_pos (Nat.le_refl _), Nat.sub_self]
    rfl
  · rw [if_neg here]
    by_cases behind : top ≤ y
    · rw [if_pos behind, if_pos (by omega), show y - top = y - (top + 1) + 1 by omega]
      rfl
    · rw [if_neg behind, if_neg (by omega)]

theorem pixel_shows {x y : Nat} (colour : Nat) (column : x < 800) (row : y < 600) :
    Shows [{ x := x, y := y, rgbColor := colour }] fun px py =>
      if px = x ∧ py = y then some colour else none := by
  apply Shows.uniform
  · simp
  · simpa using ⟨column, row⟩
  · intro px _ py _
    simp [eq_comm]

-- one character, drawn or not
theorem drawMouseLoop_char {c : Char} (known : c = '0' ∨ c = '1' ∨ c = '#') (rest : List Char)
    {x y : Nat} (column : x + 80 < 800) (row : y + 80 < 600) :
    ∃ drawn, drawMouseLoop (c :: rest) x y = drawn ++ drawMouseLoop rest (x + 1) y ∧
      Shows drawn fun px py => if px = x + 80 ∧ py = y + 80 then mouseColour c else none := by
  rcases known with rfl | rfl | rfl
  · refine ⟨[], rfl, Puts.nil.congr fun pos => ?_⟩
    simp [onScreen, mouseColour]
  · exact ⟨[_], rfl, pixel_shows _ column row⟩
  · exact ⟨[_], rfl, pixel_shows _ column row⟩

theorem drawMouseLoop_row {row : List Char} (known : ∀ c ∈ row, c = '0' ∨ c = '1' ∨ c = '#')
    (rest : List Char) {x y : Nat} (columns : x + 80 + row.length ≤ 800) (below : y + 80 < 600) :
    ∃ drawn, drawMouseLoop (row ++ rest) x y =
        drawn ++ drawMouseLoop rest (x + row.length) y ∧
      Shows drawn fun px py => if py = y + 80 then rowAt row (x + 80) px else none := by
  induction row generalizing x with
  | nil =>
    refine ⟨[], rfl, Puts.nil.congr fun pos => ?_⟩
    simp [onScreen, rowAt]
  | cons c row ih =>
    rw [List.length_cons] at columns
    obtain ⟨first, drawsFirst, showsFirst⟩ := drawMouseLoop_char (known c List.mem_cons_self)
      (row ++ rest) (show x + 80 < 800 by omega) below
    obtain ⟨later, drawsLater, showsLater⟩ := ih (x := x + 1)
      (fun other member => known other (List.mem_cons_of_mem _ member)) (by omega)
    refine ⟨first ++ later, ?_, (showsFirst.append showsLater).congr ?_⟩
    · rw [List.cons_append, drawsFirst, drawsLater, List.append_assoc, List.length_cons]
      congr 3
      omega
    · intro px _ py _
      rw [rowAt_cons]
      unfold above
      by_cases level : py = y + 80
      · by_cases here : px = x + 80
        · have behind : rowAt row (x + 1 + 80) (x + 80) = none := if_neg (by omega)
          simp only [level, here, if_true, and_self, behind, Option.none_or]
        · simp only [level, here, if_true, if_false, and_true, Option.or_none]
      · simp only [level, and_false, if_false, Option.or_none]

theorem drawMouseLoop_rows {rows : List (List Char)}
    (known : ∀ row ∈ rows, ∀ c ∈ row, c = '0' ∨ c = '1' ∨ c = '#')
    (narrow : ∀ row ∈ rows, row.length ≤ 719) {y : Nat} (low : y + rows.length ≤ 520) :
    Shows (drawMouseLoop ("\n      ".toList.intercalate rows ++ ['\n']) 1 y)
      (rowsAt rows 81 (y + 80)) := by
  induction rows generalizing y with
  | nil =>
    refine Puts.nil.congr fun pos => ?_
    simp [onScreen, rowsAt]
  | cons row rows ih =>
    rw [List.length_cons] at low
    have wide := narrow row List.mem_cons_self
    have later := ih (y := y + 1)
      (fun other member => known other (List.mem_cons_of_mem _ member))
      (fun other member => narrow other (List.mem_cons_of_mem _ member)) (by omega)
    -- the line break and the indentation behind it draw nothing
    have rest : ∃ rest, "\n      ".toList.intercalate (row :: rows) ++ ['\n'] = row ++ rest ∧
        ∀ x, drawMouseLoop rest x y =
          drawMouseLoop ("\n      ".toList.intercalate rows ++ ['\n']) 1 (y + 1) := by
      cases rows with
      | nil => exact ⟨_, by rw [List.intercalate_singleton], fun x => rfl⟩
      | cons next rows =>
        refine ⟨"\n      ".toList ++ ("\n      ".toList.intercalate (next :: rows) ++ ['\n']),
          ?_, fun x => rfl⟩
        rw [List.intercalate_cons_cons, List.append_assoc, List.append_assoc]
    obtain ⟨rest, split, continues⟩ := rest
    obtain ⟨drawn, draws, shows_⟩ := drawMouseLoop_row (known row List.mem_cons_self) rest
      (show 1 + 80 + row.length ≤ 800 by omega) (show y + 80 < 600 by omega)
    rw [split, draws, continues]
    refine (shows_.append later).congr ?_
    intro px _ py _
    rw [rowsAt_cons]
    unfold above
    by_cases level : py = y + 80
    · have behind : rowsAt rows 81 (y + 1 + 80) px (y + 80) = none := if_neg (by omega)
      simp only [level, if_true, behind, Option.none_or]
    · simp only [level, if_false, Option.or_none]

theorem guiDrawMouse_shows :
    Shows guiDrawMouse (rowsAt (mouseRows.map String.toList) 81 81) :=
  drawMouseLoop_rows (by simp [mouseRows]) (by simp [mouseRows]) (by decide)

/-! ## The rounds of the loop -/

theorem guiRound_shows {window : Vector Window maxWindows}
    (fits : ∀ entry ∈ window.toList, entry.id ≠ 0 → Fits entry ∧ entry.h.toNat < screenHeight) :
    Shows (guiRound window) fun x y => some (sceneAt window x y) := by
  have desktop := vbeDrawRect_shows (x := 0) (y := 0) 0x5C788C (Nat.le_refl 800) (Nat.le_refl 600)
  have taskBar := vbeDrawRect_shows (x := 0) (y := 0) 0xBDBDBD (Nat.le_refl 800)
    (show 25 ≤ 600 by decide)
  have layers := ((desktop.append taskBar).append (guiDrawWindows_shows fits)).append
    guiDrawMouse_shows
  refine layers.congr ?_
  intro x column y row
  unfold above sceneAt
  simp only [Nat.zero_le, column, row, true_and, if_true]
  cases rowsAt (mouseRows.map String.toList) 81 81 x y with
  | some colour => rfl
  | none =>
    cases windowsAt window x y with
    | some colour => rfl
    | none =>
      by_cases bar : y < 25
      · simp only [if_pos bar, Option.none_or, Option.some_or, Option.getD_some]
      · simp only [if_neg bar, Option.none_or, Option.getD_none]

-- the adapter after some rounds
def afterRounds (window : Vector Window maxWindows) (n : Nat) (adapter : Adapter) : Adapter :=
  { adapter with
    memory := (fun buffer => (guiRound window).foldl vbeDrawPixel buffer)^[n] adapter.memory }

theorem vbeSetVideoMode_correct (adapter : Adapter) (width height bpp : UInt16)
    (wide : width ≤ maxXres) (high : height ≤ maxYres) (depth : bpp ∈ depths) :
    ∃ memory, adapter.outports (vbeSetVideoMode width height bpp) =
      { index := 0x4, xres := width, yres := height, bpp := bpp, enabled := true, linear := true,
        virtWidth := width, xOffset := 0, yOffset := 0, memory := memory } := by
  refine ⟨fun _ => 0, ?_⟩
  simp +decide [vbeSetVideoMode, vbeWrite, Adapter.outports, Adapter.outportw, Adapter.setRegister,
    Adapter.enable, wide, high, depth]

/--
Whatever mode the adapter was in and whatever was drawn before, the screen shows the scene after
each round of the loop, and nothing is stored behind the screen.
-/
theorem gui_shows_scene (adapter : Adapter) (window : Vector Window maxWindows)
    (fits : ∀ entry ∈ window.toList, entry.id ≠ 0 → Fits entry ∧ entry.h.toNat < screenHeight)
    (n : Nat) :
    (∀ x < screenWidth, ∀ y < screenHeight,
      (afterRounds window (n + 1) (adapter.outports (vbeSetVideoMode (UInt16.ofNat screenWidth)
        (UInt16.ofNat screenHeight) (UInt16.ofNat screenDepth)))).shown x y =
        some (sceneAt window x y)) ∧
    ∀ a : Adapter, ∀ pos ≥ screenWidth * screenHeight,
      (afterRounds window (n + 1) a).memory pos = a.memory pos := by
  have rounds (buffer : Nat → Nat) (pos : Nat) :
      (fun buffer => (guiRound window).foldl vbeDrawPixel buffer)^[n + 1] buffer pos =
        (onScreen (fun x y => some (sceneAt window x y)) pos).getD (buffer pos) := by
    have same : (fun buffer => (guiRound window).foldl vbeDrawPixel buffer) =
        paint (stores (guiRound window)) := funext (foldl_vbeDrawPixel _)
    rw [same]
    exact Puts.repeat (guiRound_shows fits) n buffer pos
  constructor
  · intro x column y row
    unfold screenWidth at column
    unfold screenHeight at row
    obtain ⟨memory, mode⟩ := vbeSetVideoMode_correct adapter (UInt16.ofNat screenWidth)
      (UInt16.ofNat screenHeight) (UInt16.ofNat screenDepth) (by decide) (by decide) (by decide)
    have size : x < (UInt16.ofNat screenWidth).toNat ∧ y < (UInt16.ofNat screenHeight).toNat :=
      ⟨column, row⟩
    have at_ : (y + 0) * 800 + (x + 0) < 480000 := by omega
    rw [mode, afterRounds, Adapter.shown, if_pos ⟨rfl, rfl, rfl, size⟩]
    change some (_^[n + 1] memory ((y + 0) * 800 + (x + 0))) = _
    rw [rounds, onScreen, if_pos at_, show ((y + 0) * 800 + (x + 0)) % 800 = x by omega,
      show ((y + 0) * 800 + (x + 0)) / 800 = y by omega]
    rfl
  · intro a pos outside
    change _^[n + 1] a.memory pos = _
    unfold screenWidth screenHeight at outside
    rw [rounds, onScreen, if_neg (by omega)]
    rfl

-- the table at boot
def initialGui : Gui := { window := Vector.replicate maxWindows unusedWindow, id := 1 }

-- the windows of `GUI_Init` from a table with nothing in it; the mouse and the second one are seen
theorem gui_shows_scene_initial : ∃ gui, guiInitWindows initialGui = some gui ∧
    ∀ adapter : Adapter, ∀ n, ∃ shown : Nat → Nat → Option Nat,
      shown = (afterRounds gui.window (n + 1) (adapter.outports (vbeSetVideoMode
        (UInt16.ofNat screenWidth) (UInt16.ofNat screenHeight) (UInt16.ofNat screenDepth)))).shown ∧
      shown 81 81 = some 0xFFFFFF ∧ shown 300 210 = some 0x004C5D ∧ shown 170 170 = some 0xBBC2C2 := by
  have opened : (guiInitWindows initialGui).isSome := by decide +kernel
  have fits : ∀ gui ∈ guiInitWindows initialGui, ∀ entry ∈ gui.window.toList, entry.id ≠ 0 →
      (entry.x.toNat < entry.w.toNat ∧ entry.w.toNat ≤ screenWidth) ∧
        entry.y.toNat + 22 < entry.h.toNat ∧ entry.h.toNat < screenHeight := by decide +kernel
  have colours : ∀ gui ∈ guiInitWindows initialGui, sceneAt gui.window 81 81 = 0xFFFFFF ∧
      sceneAt gui.window 300 210 = 0x004C5D ∧ sceneAt gui.window 170 170 = 0xBBC2C2 := by
    decide +kernel
  obtain ⟨gui, result⟩ := Option.isSome_iff_exists.mp opened
  obtain ⟨mouse, second, first⟩ := colours gui result
  refine ⟨gui, result, fun adapter n => ⟨_, rfl, ?_⟩⟩
  have shows_ := (gui_shows_scene adapter gui.window (fun entry member used => by
    obtain ⟨⟨column, width⟩, row, height⟩ := fits gui result entry member used
    exact ⟨⟨column, width, row, Nat.le_of_lt height⟩, height⟩) n).1
  rw [shows_ 81 (by decide) 81 (by decide), shows_ 300 (by decide) 210 (by decide),
    shows_ 170 (by decide) 170 (by decide), mouse, second, first]
  exact ⟨rfl, rfl, rfl⟩

end GekonOS.Scene
