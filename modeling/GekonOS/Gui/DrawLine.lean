import GekonOS.Kernel.Vbe

set_option autoImplicit false

namespace GekonOS.DrawLine

def distance (a b : Nat) : Nat := max a b - min a b

def toward (a b steps : Nat) : Nat := if a ≤ b then a + steps else a - steps

-- the distances along the longer and along the shorter axis
def longer (x1 y1 x2 y2 : Nat) : Nat := max (distance x1 x2) (distance y1 y2)

def shorter (x1 y1 x2 y2 : Nat) : Nat := min (distance x1 x2) (distance y1 y2)

/-- The pixel after `j` steps; a division by zero gives zero. -/
def pixelAt (x1 y1 x2 y2 rgbColor j : Nat) : Pixel :=
  let across := j * shorter x1 y1 x2 y2 / longer x1 y1 x2 y2
  if distance x1 x2 < distance y1 y2 then
    { x := toward x1 x2 across, y := toward y1 y2 j, rgbColor := rgbColor }
  else { x := toward x1 x2 j, y := toward y1 y2 across, rgbColor := rgbColor }

-- one step of a king
def Neighbours (p q : Pixel) : Prop := max (distance p.x q.x) (distance p.y q.y) = 1

structure InBox (x1 y1 x2 y2 : Nat) (p : Pixel) : Prop where
  x : min x1 x2 ≤ p.x ∧ p.x ≤ max x1 x2
  y : min y1 y2 ≤ p.y ∧ p.y ≤ max y1 y2

structure DrawsLine (x1 y1 x2 y2 rgbColor : Nat) (drawn : List Pixel) : Prop where
  count : drawn.length = longer x1 y1 x2 y2 + 1
  pixels : ∀ j ≤ longer x1 y1 x2 y2, drawn[j]? = some (pixelAt x1 y1 x2 y2 rgbColor j)
  first : drawn.head? = some { x := x1, y := y1, rgbColor := rgbColor }
  last : drawn.getLast? = some { x := x2, y := y2, rgbColor := rgbColor }
  neighbours : drawn.IsChain Neighbours
  inside : ∀ p ∈ drawn, InBox x1 y1 x2 y2 p

theorem asInt_small {n : Int} (low : -2147483648 ≤ n) (high : n < 2147483648) : asInt n = n :=
  Int.bmod_eq_of_le (by omega) (by omega)

theorem asUnsigned_small {n : Nat} (small : n < 4294967296) : asUnsigned (n : Int) = n := by
  unfold asUnsigned
  omega

/-! ## The error term -/

section Loop

variable {m n j : Nat}

-- what `k` and the number of diagonal steps become when `n` is added
theorem next_straight (below : j * n % m + n < m) :
    (j + 1) * n / m = j * n / m ∧ (j + 1) * n % m = j * n % m + n := by
  have split := Nat.div_add_mod (j * n) m
  have sum : (j + 1) * n = (j * n % m + n) + m * (j * n / m) := by
    rw [Nat.succ_mul]
    omega
  have positive : 0 < m := by omega
  constructor
  · rw [sum, Nat.add_mul_div_left _ _ positive, Nat.div_eq_of_lt below, Nat.zero_add]
  · rw [sum, Nat.add_mul_mod_self_left, Nat.mod_eq_of_lt below]

theorem next_diagonal (positive : 0 < m) (small : n ≤ m) (reached : m ≤ j * n % m + n) :
    (j + 1) * n / m = j * n / m + 1 ∧ (j + 1) * n % m = j * n % m + n - m := by
  have split := Nat.div_add_mod (j * n) m
  have rest : j * n % m + n - m < m := by
    have := Nat.mod_lt (j * n) positive
    omega
  have sum : (j + 1) * n = (j * n % m + n - m) + m * (j * n / m + 1) := by
    rw [Nat.succ_mul, Nat.mul_succ]
    omega
  constructor
  · rw [sum, Nat.add_mul_div_left _ _ positive, Nat.div_eq_of_lt rest, Nat.zero_add]
  · rw [sum, Nat.add_mul_mod_self_left, Nat.mod_eq_of_lt rest]

variable {setup : LineSetup} {x y : Nat → Nat}

/-- The coordinates `x j`, `y j` are those that straight and diagonal steps lead to. -/
structure Steps (setup : LineSetup) (m n : Nat) (x y : Nat → Nat) : Prop where
  long : setup.m = m
  short : setup.n = n
  small : n ≤ m
  bound : m < 1073741824
  range : ∀ j ≤ m, x j < 1073741824 ∧ y j < 1073741824
  straight : ∀ j < m, (j + 1) * n / m = j * n / m →
    (x (j + 1) : Int) = x j + setup.dx2 ∧ (y (j + 1) : Int) = y j + setup.dy2
  diagonal : ∀ j < m, (j + 1) * n / m = j * n / m + 1 →
    (x (j + 1) : Int) = x j + setup.dx1 ∧ (y (j + 1) : Int) = y j + setup.dy1

/-- Before pixel `j` the loop has `k = j * n mod m`. -/
theorem Steps.loop (steps : Steps setup m n x y) (rgbColor cnt j : Nat) (within : j + cnt ≤ m + 1) :
    drawLineLoop setup rgbColor cnt (x j) (y j) (j * n % m : Nat) =
      (List.range' j cnt).map fun j => { x := x j, y := y j, rgbColor := rgbColor } := by
  induction cnt generalizing j with
  | zero => rfl
  | succ cnt ih =>
    have here := steps.range j (by omega)
    have small := steps.small
    have bound := steps.bound
    rw [List.range'_succ, List.map_cons, drawLineLoop]
    simp only [asUnsigned_small (n := x j) (by omega), asUnsigned_small (n := y j) (by omega)]
    by_cases last : j = m
    · -- nothing is drawn any more
      obtain rfl : cnt = 0 := by omega
      simp only [drawLineLoop, ite_self, List.range'_zero, List.map_nil]
    · have positive : 0 < m := by omega
      have remainder := Nat.mod_lt (j * n) positive
      have next := steps.range (j + 1) (by omega)
      have sum : asInt (((j * n % m : Nat) : Int) + setup.n) = (j * n % m + n : Nat) := by
        rw [steps.short, asInt_small (by omega) (by omega)]
        rfl
      rw [sum, steps.long]
      by_cases below : j * n % m + n < m
      · obtain ⟨quotient, modulus⟩ := next_straight below
        obtain ⟨toX, toY⟩ := steps.straight j (by omega) quotient
        rw [if_pos (by omega), ← toX, ← toY, asInt_small (by omega) (by omega),
          asInt_small (by omega) (by omega), ← modulus, ih (j + 1) (by omega)]
      · obtain ⟨quotient, modulus⟩ := next_diagonal positive small (Nat.le_of_not_lt below)
        obtain ⟨toX, toY⟩ := steps.diagonal j (by omega) quotient
        have rest : asInt (((j * n % m + n : Nat) : Int) - m) = ((j + 1) * n % m : Nat) := by
          rw [asInt_small (by omega) (by omega), modulus]
          omega
        rw [if_neg (by omega), ← toX, ← toY, rest, asInt_small (by omega) (by omega),
          asInt_small (by omega) (by omega), ih (j + 1) (by omega)]

end Loop

/-! ## The eight octants -/

-- the step that leads from `a` towards `b`
def direction (a b : Nat) : Int := if a < b then 1 else if b < a then -1 else 0

section Axis

variable {a b steps : Nat}

theorem toward_next (before : steps < distance a b) :
    (toward a b (steps + 1) : Int) = toward a b steps + direction a b := by
  unfold distance at before
  unfold toward direction
  split_ifs <;> omega

theorem toward_between (within : steps ≤ distance a b) :
    min a b ≤ toward a b steps ∧ toward a b steps ≤ max a b := by
  unfold distance at within
  unfold toward
  split <;> omega

theorem toward_zero : toward a b 0 = a := by
  unfold toward
  split <;> rfl

theorem toward_distance : toward a b (distance a b) = b := by
  unfold toward distance
  split <;> omega

theorem distance_toward_next (before : steps < distance a b) :
    distance (toward a b steps) (toward a b (steps + 1)) = 1 := by
  unfold distance at before
  unfold toward distance
  split <;> omega

theorem distance_self : distance a a = 0 := by
  unfold distance
  omega

theorem abs_difference (hA : a < 1073741824) (hB : b < 1073741824) :
    abs (asInt ((b : Int) - a)) = distance a b := by
  rw [asInt_small (by omega) (by omega)]
  unfold abs distance
  split
  next => omega
  next => rw [asInt_small (by omega) (by omega)]; omega

theorem direction_difference (hA : a < 1073741824) (hB : b < 1073741824) :
    (if asInt ((b : Int) - a) > 0 then 1 else if asInt ((b : Int) - a) < 0 then -1 else 0) =
      direction a b := by
  rw [asInt_small (by omega) (by omega)]
  unfold direction
  split_ifs <;> omega

end Axis

section Line

variable {x1 y1 x2 y2 : Nat}

/-- All four coordinates lie below `2^30`. -/
structure Coordinates (x1 y1 x2 y2 : Nat) : Prop where
  x1 : x1 < 1073741824
  y1 : y1 < 1073741824
  x2 : x2 < 1073741824
  y2 : y2 < 1073741824

theorem lineSetup_correct (small : Coordinates x1 y1 x2 y2) :
    lineSetup x1 y1 x2 y2 =
      if distance x1 x2 < distance y1 y2 then
        { dx1 := direction x1 x2, dy1 := direction y1 y2, dx2 := 0, dy2 := direction y1 y2,
          m := distance y1 y2, n := distance x1 x2 }
      else
        { dx1 := direction x1 x2, dy1 := direction y1 y2, dx2 := direction x1 x2, dy2 := 0,
          m := distance x1 x2, n := distance y1 y2 } := by
  unfold lineSetup
  simp only [abs_difference small.x1 small.x2, abs_difference small.y1 small.y2,
    direction_difference small.x1 small.x2, direction_difference small.y1 small.y2, Nat.cast_lt]

theorem across_le {j m n : Nat} (within : j ≤ m) : j * n / m ≤ n :=
  Nat.div_le_of_le_mul (Nat.mul_le_mul_right n within)

-- the x coordinate is the longer one
theorem steps_flat (small : Coordinates x1 y1 x2 y2) (flat : distance y1 y2 ≤ distance x1 x2) :
    Steps (lineSetup x1 y1 x2 y2) (distance x1 x2) (distance y1 y2) (toward x1 x2)
      (fun j => toward y1 y2 (j * distance y1 y2 / distance x1 x2)) := by
  obtain ⟨hx1, hy1, hx2, hy2⟩ := id small
  rw [lineSetup_correct small, if_neg (Nat.not_lt_of_le flat)]
  constructor
  case long => rfl
  case short => rfl
  case small => exact flat
  case bound =>
    unfold distance
    omega
  case range =>
    intro j within
    have alongX := toward_between within
    have alongY := toward_between (across_le (n := distance y1 y2) within)
    omega
  case straight =>
    intro j before same
    exact ⟨toward_next before, by simp only [same, Int.add_zero]⟩
  case diagonal =>
    intro j before next
    have across := across_le (n := distance y1 y2) (Nat.succ_le_of_lt before)
    rw [next] at across
    exact ⟨toward_next before, by simp only [next]; exact toward_next across⟩

theorem steps_steep (small : Coordinates x1 y1 x2 y2) (steep : distance x1 x2 < distance y1 y2) :
    Steps (lineSetup x1 y1 x2 y2) (distance y1 y2) (distance x1 x2)
      (fun j => toward x1 x2 (j * distance x1 x2 / distance y1 y2)) (toward y1 y2) := by
  obtain ⟨hx1, hy1, hx2, hy2⟩ := id small
  rw [lineSetup_correct small, if_pos steep]
  constructor
  case long => rfl
  case short => rfl
  case small => exact Nat.le_of_lt steep
  case bound =>
    unfold distance
    omega
  case range =>
    intro j within
    have alongX := toward_between (across_le (n := distance x1 x2) within)
    have alongY := toward_between within
    omega
  case straight =>
    intro j before same
    exact ⟨by simp only [same, Int.add_zero], toward_next before⟩
  case diagonal =>
    intro j before next
    have across := across_le (n := distance x1 x2) (Nat.succ_le_of_lt before)
    rw [next] at across
    exact ⟨by simp only [next]; exact toward_next across, toward_next before⟩

theorem longer_steep (steep : distance x1 x2 < distance y1 y2) :
    longer x1 y1 x2 y2 = distance y1 y2 ∧ shorter x1 y1 x2 y2 = distance x1 x2 :=
  ⟨Nat.max_eq_right (Nat.le_of_lt steep), Nat.min_eq_left (Nat.le_of_lt steep)⟩

theorem longer_flat (flat : distance y1 y2 ≤ distance x1 x2) :
    longer x1 y1 x2 y2 = distance x1 x2 ∧ shorter x1 y1 x2 y2 = distance y1 y2 :=
  ⟨Nat.max_eq_left flat, Nat.min_eq_right flat⟩

variable {rgbColor : Nat}

theorem Steps.line {m n : Nat} {x y : Nat → Nat} (steps : Steps (lineSetup x1 y1 x2 y2) m n x y)
    (small : Coordinates x1 y1 x2 y2) (startX : x 0 = x1) (startY : y 0 = y1) :
    vbeDrawLine x1 y1 x2 y2 rgbColor =
      (List.range (m + 1)).map fun j => { x := x j, y := y j, rgbColor := rgbColor } := by
  have bound := steps.bound
  have count : asUnsigned ((lineSetup x1 y1 x2 y2).m + 1) = m + 1 := by
    rw [steps.long]
    exact asUnsigned_small (n := m + 1) (by omega)
  have run := steps.loop rgbColor (m + 1) 0 (by omega)
  rw [Nat.zero_mul, Nat.zero_mod, startX, startY, ← List.range_eq_range'] at run
  have hX := small.x1
  have hY := small.y1
  simp only [vbeDrawLine, count]
  rw [asInt_small (by omega) (by omega), asInt_small (by omega) (by omega)]
  exact run

theorem vbeDrawLine_eq (small : Coordinates x1 y1 x2 y2) :
    vbeDrawLine x1 y1 x2 y2 rgbColor =
      (List.range (longer x1 y1 x2 y2 + 1)).map (pixelAt x1 y1 x2 y2 rgbColor) := by
  by_cases steep : distance x1 x2 < distance y1 y2
  · obtain ⟨long, short⟩ := longer_steep steep
    rw [(steps_steep small steep).line small
      (by simp only [Nat.zero_mul, Nat.zero_div, toward_zero]) toward_zero, long]
    apply List.map_congr_left
    intro j _
    rw [pixelAt, if_pos steep, long, short]
  · have flat := Nat.le_of_not_lt steep
    obtain ⟨long, short⟩ := longer_flat flat
    rw [(steps_flat small flat).line small toward_zero
      (by simp only [Nat.zero_mul, Nat.zero_div, toward_zero]), long]
    apply List.map_congr_left
    intro j _
    rw [pixelAt, if_neg steep, long, short]

theorem pixelAt_zero :
    pixelAt x1 y1 x2 y2 rgbColor 0 = { x := x1, y := y1, rgbColor := rgbColor } := by
  unfold pixelAt
  simp only [Nat.zero_mul, Nat.zero_div, toward_zero, ite_self]

theorem pixelAt_longer : pixelAt x1 y1 x2 y2 rgbColor (longer x1 y1 x2 y2) =
    { x := x2, y := y2, rgbColor := rgbColor } := by
  unfold pixelAt
  by_cases steep : distance x1 x2 < distance y1 y2
  · obtain ⟨long, short⟩ := longer_steep steep
    have across : distance y1 y2 * distance x1 x2 / distance y1 y2 = distance x1 x2 :=
      Nat.mul_div_cancel_left _ (by omega)
    simp only [if_pos steep, long, short, across, toward_distance]
  · have flat := Nat.le_of_not_lt steep
    obtain ⟨long, short⟩ := longer_flat flat
    have across : distance x1 x2 * distance y1 y2 / distance x1 x2 = distance y1 y2 := by
      by_cases point : distance x1 x2 = 0
      · rw [point, Nat.zero_mul, Nat.zero_div]
        omega
      · exact Nat.mul_div_cancel_left _ (by omega)
    simp only [if_neg steep, long, short, across, toward_distance]

theorem across_next {j m n : Nat} (small : n ≤ m) (positive : 0 < m) :
    (j + 1) * n / m = j * n / m ∨ (j + 1) * n / m = j * n / m + 1 := by
  by_cases below : j * n % m + n < m
  · exact Or.inl (next_straight below).1
  · exact Or.inr (next_diagonal positive small (Nat.le_of_not_lt below)).1

-- along the shorter axis a step moves by at most one
theorem distance_across {a b j m : Nat} (small : distance a b ≤ m) (before : j < m) :
    distance (toward a b (j * distance a b / m)) (toward a b ((j + 1) * distance a b / m)) ≤ 1 := by
  cases across_next (j := j) small (by omega) with
  | inl same =>
    rw [same, distance_self]
    exact Nat.zero_le 1
  | inr next =>
    have across := across_le (n := distance a b) (Nat.succ_le_of_lt before)
    rw [next] at across
    rw [next, distance_toward_next across]

theorem pixelAt_neighbours {j : Nat} (before : j < longer x1 y1 x2 y2) :
    Neighbours (pixelAt x1 y1 x2 y2 rgbColor j) (pixelAt x1 y1 x2 y2 rgbColor (j + 1)) := by
  unfold Neighbours pixelAt
  by_cases steep : distance x1 x2 < distance y1 y2
  · obtain ⟨long, short⟩ := longer_steep steep
    rw [long] at before
    simp only [if_pos steep, long, short, distance_toward_next before]
    exact Nat.max_eq_right (distance_across (Nat.le_of_lt steep) before)
  · have flat := Nat.le_of_not_lt steep
    obtain ⟨long, short⟩ := longer_flat flat
    rw [long] at before
    simp only [if_neg steep, long, short, distance_toward_next before]
    exact Nat.max_eq_left (distance_across flat before)

theorem pixelAt_inside {j : Nat} (within : j ≤ longer x1 y1 x2 y2) :
    InBox x1 y1 x2 y2 (pixelAt x1 y1 x2 y2 rgbColor j) := by
  unfold pixelAt
  by_cases steep : distance x1 x2 < distance y1 y2
  · obtain ⟨long, short⟩ := longer_steep steep
    rw [long] at within
    simp only [if_pos steep, long, short]
    exact ⟨toward_between (across_le within), toward_between within⟩
  · have flat := Nat.le_of_not_lt steep
    obtain ⟨long, short⟩ := longer_flat flat
    rw [long] at within
    simp only [if_neg steep, long, short]
    exact ⟨toward_between within, toward_between (across_le within)⟩

theorem vbeDrawLine_correct (small : Coordinates x1 y1 x2 y2) :
    DrawsLine x1 y1 x2 y2 rgbColor (vbeDrawLine x1 y1 x2 y2 rgbColor) := by
  rw [vbeDrawLine_eq small]
  constructor
  case count => rw [List.length_map, List.length_range]
  case pixels =>
    intro j within
    rw [List.getElem?_map, List.getElem?_range (by omega), Option.map_some]
  case first =>
    rw [List.head?_map, List.head?_range, if_neg (Nat.succ_ne_zero _), Option.map_some,
      pixelAt_zero]
  case last =>
    rw [List.range_succ, List.map_append, List.map_singleton, List.getLast?_concat, pixelAt_longer]
  case neighbours =>
    rw [List.isChain_map, List.isChain_range_succ]
    exact fun j before => pixelAt_neighbours before
  case inside =>
    intro p member
    obtain ⟨j, inRange, rfl⟩ := List.mem_map.mp member
    exact pixelAt_inside (Nat.le_of_lt_succ (List.mem_range.mp inRange))

end Line

/--
`VBE_DrawLine` draws one pixel for each step along the longer axis, at the rounded-down place along
the other, from the first point to the second.
-/
theorem line_drawn (x1 y1 x2 y2 rgbColor : Nat) (hx1 : x1 < 2 ^ 30) (hy1 : y1 < 2 ^ 30)
    (hx2 : x2 < 2 ^ 30) (hy2 : y2 < 2 ^ 30) :
    DrawsLine x1 y1 x2 y2 rgbColor (vbeDrawLine x1 y1 x2 y2 rgbColor) :=
  vbeDrawLine_correct ⟨hx1, hy1, hx2, hy2⟩

-- the fourth pixel of a line that rises by two rows in five steps
theorem line_drawn_rising :
    (vbeDrawLine 10 20 15 18 7)[3]? = some { x := 13, y := 19, rgbColor := 7 } :=
  (line_drawn 10 20 15 18 7 (by decide) (by decide) (by decide) (by decide)).pixels 3 (by decide)

end GekonOS.DrawLine
