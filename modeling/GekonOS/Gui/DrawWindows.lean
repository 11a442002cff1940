import GekonOS.Gui.DrawLine
import GekonOS.Kernel.Gui

set_option autoImplicit false

namespace GekonOS.DrawWindows

open DrawLine

/-- A window of the screen with room for its title bar. -/
structure Fits (entry : Window) : Prop where
  column : entry.x.toNat < entry.w.toNat
  width : entry.w.toNat ≤ screenWidth
  row : entry.y.toNat + 22 < entry.h.toNat
  height : entry.h.toNat ≤ screenHeight

-- the half-open rectangle that the first call fills
structure InRect (entry : Window) (pixel : Pixel) : Prop where
  x : entry.x.toNat ≤ pixel.x ∧ pixel.x < entry.w.toNat
  y : entry.y.toNat ≤ pixel.y ∧ pixel.y < entry.h.toNat

def StoresInside (window : Vector Window maxWindows) : Prop :=
  ∀ pixel ∈ guiDrawWindows window, pixel.pos < screenWidth * screenHeight

structure DrawsInside (window : Vector Window maxWindows) : Prop where
  rectangles : ∀ entry ∈ window.toList, ∀ pixel ∈ drawWindow entry, InRect entry pixel
  stores : StoresInside window

theorem mem_vbeDrawRect {x y x2 y2 rgbColor : Nat} {pixel : Pixel}
    (member : pixel ∈ vbeDrawRect x y x2 y2 rgbColor) :
    (x ≤ pixel.x ∧ pixel.x < x2) ∧ y ≤ pixel.y ∧ pixel.y < y2 := by
  simp only [vbeDrawRect, List.mem_flatMap, List.mem_map, List.mem_range'_1] at member
  obtain ⟨ty, rows, tx, columns, rfl⟩ := member
  simp only
  omega

variable {entry : Window} {pixel : Pixel}

theorem drawWindow_used (used : entry.id ≠ 0) (fits : Fits entry) :
    drawWindow entry =
      vbeDrawRect entry.x.toNat entry.y.toNat entry.w.toNat entry.h.toNat 0xD8D8D8 ++
      vbeDrawRect entry.x.toNat entry.y.toNat entry.w.toNat (entry.y.toNat + 22)
        (if entry.active then 0x004C5D else 0xBBC2C2) ++
      vbeDrawLine entry.x.toNat (entry.y.toNat + 22) entry.x.toNat entry.h.toNat 0xC4C5C5 ++
      vbeDrawLine (entry.w.toNat - 1) (entry.y.toNat + 22) (entry.w.toNat - 1) entry.h.toNat
        0xC4C5C5 ++
      vbeDrawLine entry.x.toNat entry.h.toNat (entry.w.toNat - 1) entry.h.toNat 0xC4C5C5 := by
  have small (n : UInt16) : asUnsigned (n.toNat : Int) = n.toNat := by
    have bound := n.toNat_lt
    exact asUnsigned_small (by omega)
  have below : asUnsigned ((entry.y.toNat : Int) + 22) = entry.y.toNat + 22 := by
    have bound := entry.y.toNat_lt
    exact asUnsigned_small (n := entry.y.toNat + 22) (by omega)
  have before : asUnsigned ((entry.w.toNat : Int) - 1) = entry.w.toNat - 1 := by
    have bound := entry.w.toNat_lt
    have column := fits.column
    rw [← asUnsigned_small (n := entry.w.toNat - 1) (by omega)]
    congr 1
    omega
  simp only [drawWindow, if_pos used, small, below, before]

theorem Fits.coordinates (fits : Fits entry) :
    entry.x.toNat < 800 ∧ entry.w.toNat ≤ 800 ∧ entry.y.toNat + 22 < 600 ∧ entry.h.toNat ≤ 600 := by
  have column := fits.column
  have width := fits.width
  have row := fits.row
  have height := fits.height
  unfold screenWidth at width
  unfold screenHeight at height
  omega

theorem drawWindow_bounds (used : entry.id ≠ 0) (fits : Fits entry)
    (member : pixel ∈ drawWindow entry) :
    (entry.x.toNat ≤ pixel.x ∧ pixel.x < entry.w.toNat) ∧
      entry.y.toNat ≤ pixel.y ∧ pixel.y ≤ entry.h.toNat := by
  obtain ⟨hx, hw, hy, hh⟩ := fits.coordinates
  have column := fits.column
  have row := fits.row
  have line {x1 y1 x2 y2 : Nat} (small : x1 ≤ 800 ∧ y1 ≤ 600 ∧ x2 ≤ 800 ∧ y2 ≤ 600)
      (drawn : pixel ∈ vbeDrawLine x1 y1 x2 y2 0xC4C5C5) : InBox x1 y1 x2 y2 pixel :=
    (vbeDrawLine_correct ⟨by omega, by omega, by omega, by omega⟩).inside pixel drawn
  rw [drawWindow_used used fits] at member
  simp only [List.mem_append] at member
  obtain (((main | title) | left) | right) | bottom := member
  · have inside := mem_vbeDrawRect main
    omega
  · have inside := mem_vbeDrawRect title
    omega
  · obtain ⟨x, y⟩ := line (by omega) left
    omega
  · obtain ⟨x, y⟩ := line (by omega) right
    omega
  · obtain ⟨x, y⟩ := line (by omega) bottom
    omega

theorem drawWindow_bottom (used : entry.id ≠ 0) (fits : Fits entry) :
    { x := entry.x.toNat, y := entry.h.toNat, rgbColor := 0xC4C5C5 } ∈ drawWindow entry := by
  obtain ⟨hx, hw, hy, hh⟩ := fits.coordinates
  rw [drawWindow_used used fits]
  apply List.mem_append_right
  have small : Coordinates entry.x.toNat entry.h.toNat (entry.w.toNat - 1) entry.h.toNat :=
    ⟨by omega, by omega, by omega, by omega⟩
  exact List.mem_of_mem_head? (vbeDrawLine_correct small).first

theorem pos_small (columns : pixel.x ≤ 800) (rows : pixel.y ≤ 600) :
    pixel.pos = pixel.y * 800 + pixel.x := by
  have product : pixel.y * screenWidth < 4294967296 := by
    unfold screenWidth
    omega
  have sum : pixel.y * screenWidth + pixel.x < 4294967296 := by
    unfold screenWidth
    omega
  rw [Pixel.pos, Word32.mul_of_lt product, Word32.add_of_lt sum]
  rfl

theorem drawWindow_unused (unused : entry.id = 0) : drawWindow entry = [] :=
  if_neg (fun used => used unused)

variable {window : Vector Window maxWindows}

theorem storesInside_iff (fits : ∀ entry ∈ window.toList, entry.id ≠ 0 → Fits entry) :
    StoresInside window ↔ ∀ entry ∈ window.toList, entry.id ≠ 0 → entry.h.toNat < screenHeight := by
  constructor
  · intro inside entry listed used
    obtain ⟨hx, hw, hy, hh⟩ := (fits entry listed used).coordinates
    have stored := inside _ (List.mem_flatMap.mpr
      ⟨entry, listed, drawWindow_bottom used (fits entry listed used)⟩)
    rw [pos_small (by simp only; omega) hh] at stored
    unfold screenWidth screenHeight at stored
    unfold screenHeight
    simp only at stored
    omega
  · intro low pixel member
    obtain ⟨entry, listed, drawn⟩ := List.mem_flatMap.mp member
    by_cases used : entry.id = 0
    · rw [drawWindow_unused used] at drawn
      cases drawn
    · obtain ⟨hx, hw, hy, hh⟩ := (fits entry listed used).coordinates
      obtain ⟨columns, rows⟩ := drawWindow_bounds used (fits entry listed used) drawn
      have below := low entry listed used
      rw [pos_small (by omega) (by omega)]
      unfold screenHeight at below
      unfold screenWidth screenHeight
      omega

/--
A used window draws its bottom border in the row behind its rectangle, so that the drawing stays
inside only when no window is used. The stores leave the framebuffer only where a window ends at
the last row of the screen.
-/
theorem drawsInside_iff (window : Vector Window maxWindows)
    (fits : ∀ entry ∈ window.toList, entry.id ≠ 0 → Fits entry) :
    (DrawsInside window ↔ ∀ entry ∈ window.toList, entry.id = 0) ∧
      (StoresInside window ↔
        ∀ entry ∈ window.toList, entry.id ≠ 0 → entry.h.toNat < screenHeight) := by
  refine ⟨?_, storesInside_iff fits⟩
  constructor
  · intro inside entry listed
    by_contra used
    have bottom := inside.rectangles entry listed _
      (drawWindow_bottom used (fits entry listed used))
    exact Nat.lt_irrefl _ bottom.y.2
  · intro unused
    constructor
    case rectangles =>
      intro entry listed pixel drawn
      rw [drawWindow_unused (unused entry listed)] at drawn
      cases drawn
    case stores =>
      rw [storesInside_iff fits]
      exact fun entry listed used => absurd (unused entry listed) used

-- one window, down to the last row
def lastWindow : Window := { x := 10, y := 10, w := 50, h := 600, id := 1, active := true }

def unusedWindow : Window := { x := 0, y := 0, w := 0, h := 0, id := 0, active := false }

def oneWindow : Vector Window maxWindows :=
  (Vector.replicate maxWindows unusedWindow).set 0 lastWindow

theorem mem_oneWindow (member : entry ∈ oneWindow.toList) (used : entry.id ≠ 0) :
    entry = lastWindow := by
  cases Vector.mem_or_eq_of_mem_set (Vector.mem_toList_iff.mp member) with
  | inl unused =>
    rw [(Vector.mem_replicate.mp unused).2] at used
    exact absurd rfl used
  | inr same => exact same

theorem lastWindow_listed : lastWindow ∈ oneWindow.toList :=
  Vector.mem_toList_iff.mpr (Vector.mem_set (by decide))

theorem lastWindow_fits : Fits lastWindow := ⟨by decide, by decide, by decide, by decide⟩

theorem drawsInside_iff_one : ¬ StoresInside oneWindow := by
  have fits (entry : Window) (member : entry ∈ oneWindow.toList) (used : entry.id ≠ 0) :
      Fits entry := mem_oneWindow member used ▸ lastWindow_fits
  intro inside
  exact absurd ((drawsInside_iff oneWindow fits).2.mp inside lastWindow lastWindow_listed
    (by decide)) (by decide)

/-- The bottom border of a window that ends with the screen is drawn below the screen. -/
theorem lastWindow_outside : (∀ entry ∈ oneWindow.toList, entry.id ≠ 0 → Fits entry) ∧
    ¬ DrawsInside oneWindow := by
  refine ⟨fun entry member used => mem_oneWindow member used ▸ lastWindow_fits, fun inside => ?_⟩
  have bottom := inside.rectangles lastWindow lastWindow_listed _
    (drawWindow_bottom (by decide) lastWindow_fits)
  exact Nat.lt_irrefl _ bottom.y.2

end GekonOS.DrawWindows
