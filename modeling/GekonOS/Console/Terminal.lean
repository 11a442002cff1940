import GekonOS.Console.Literal

set_option autoImplicit false

namespace GekonOS.Console

/-- Cells by row and column, and the cursor. -/
structure Terminal where
  cells : Nat → Nat → Nat
  x : Nat
  y : Nat

namespace Terminal

def newRow (t : Terminal) : Terminal := { t with x := 0, y := t.y + 1 }

def tab (t : Terminal) : Terminal := { t with x := 8 * (t.x / 8 + 1) }

def put (attr : Nat) (c : UInt8) (t : Terminal) : Terminal :=
  { t with
    cells := fun row column =>
      if row = t.y ∧ column = t.x then c.toNat + 256 * attr else t.cells row column
    x := t.x + 1 }

def scroll (attr : Nat) (t : Terminal) : Terminal :=
  { t with
    cells := fun row column => if row < 24 then t.cells (row + 1) column else 32 + 256 * attr
    y := t.y - 1 }

-- the character and the line break it causes
def consume (attr : Nat) (t : Terminal) (c : UInt8) : Terminal :=
  let t := if c = chr '\n' then t.newRow else if c = chr '\t' then t.tab else t.put attr c
  if t.x ≥ 80 then t.newRow else t

def feed (attr : Nat) (t : Terminal) (c : UInt8) : Terminal :=
  let t := t.consume attr c
  if t.y ≥ 25 then t.scroll attr else t

end Terminal

/-- The screen and the cursor of the console, seen as a terminal. -/
def terminalOf (v : Video) : Terminal :=
  { cells := fun row column => v.vid (80 * row + column), x := v.cursorX, y := v.cursorY }

structure Shows (v : Video) (t : Terminal) : Prop where
  x : v.cursorX = t.x
  y : v.cursorY = t.y
  cells : ∀ row < 25, ∀ column < 80, v.vid (80 * row + column) = t.cells row column

/-- The terminal has scrolled and the console has not. -/
structure Pending (v : Video) (t : Terminal) : Prop where
  x : v.cursorX = t.x
  row : v.cursorY = 25
  y : t.y = 24
  cells : ∀ row < 24, ∀ column < 80, v.vid (80 * (row + 1) + column) = t.cells row column
  last : ∀ column < 80, t.cells 24 column = 32 + 256 * v.attr

/-- What a call with the text `str` shall do. -/
structure Matches (str : CString) (args : Varargs) (v : Video) (result : Video) : Prop where
  screen : Shows result (str.bytes.foldl (Terminal.feed v.attr) (terminalOf v))
  outside : ∀ i, 2000 ≤ i → result.vid i = v.vid i

-- where a character takes the cursor when nothing scrolls
def place (pos : Nat × Nat) (c : UInt8) : Nat × Nat :=
  let pos := if c = chr '\n' then (0, pos.2 + 1)
    else if c = chr '\t' then (8 * (pos.1 / 8 + 1), pos.2) else (pos.1 + 1, pos.2)
  if pos.1 ≥ 80 then (0, pos.2 + 1) else pos

/-- Below the last row the text has nothing but tabs that stay on their row. -/
def Settles : Nat × Nat → List UInt8 → Prop
  | _, [] => True
  | pos, c :: rest =>
    (pos.2 < 25 ∨ c = chr '\t' ∧ (place pos c).2 = pos.2) ∧ Settles (place pos c) rest

variable {v : Video} {t : Terminal} {c : UInt8}

theorem tab_masked {x : Nat} (column : x < 80) :
    ((x + 8) &&& 0xFFFFFFF8) % 256 = 8 * (x / 8 + 1) := by
  rw [Cursor.tab_column column]
  omega

theorem literal_place (column : v.cursorX < 80) (row : v.cursorY ≤ 25) :
    ((literal v c).cursorX, (literal v c).cursorY) = place (v.cursorX, v.cursorY) c ∧
      (literal v c).cursorX < 80 ∧ (literal v c).attr = v.attr := by
  unfold literal place wrapLine
  by_cases newline : c = chr '\n'
  · simp only [if_pos newline]
    rw [if_neg (by decide), if_neg (by decide), Nat.mod_eq_of_lt (by omega)]
    exact ⟨rfl, show 0 < 80 by decide, rfl⟩
  by_cases tab : c = chr '\t'
  · simp only [if_neg newline, if_pos tab, tab_masked column]
    by_cases wraps : 8 * (v.cursorX / 8 + 1) ≥ 80
    · simp only [if_pos wraps]
      rw [Nat.mod_eq_of_lt (by omega)]
      exact ⟨rfl, show 0 < 80 by decide, trivial⟩
    · simp only [if_neg wraps]
      exact ⟨trivial, Nat.lt_of_not_le wraps, trivial⟩
  · have next : (v.cursorX + 1) % 256 = v.cursorX + 1 := Nat.mod_eq_of_lt (by omega)
    simp only [if_neg newline, if_neg tab, putChar, next]
    by_cases wraps : v.cursorX + 1 ≥ 80
    · simp only [if_pos wraps]
      rw [Nat.mod_eq_of_lt (by omega)]
      exact ⟨rfl, show 0 < 80 by decide, trivial⟩
    · simp only [if_neg wraps]
      exact ⟨trivial, Nat.lt_of_not_le wraps, trivial⟩

-- what a character writes: nothing, or the cell under the cursor
def Writes (c : UInt8) : Prop := c ≠ chr '\n' ∧ c ≠ chr '\t'

instance (c : UInt8) : Decidable (Writes c) := inferInstanceAs (Decidable (_ ∧ _))

theorem literal_vid (i : Nat) : (literal v c).vid i =
    if Writes c ∧ i = 80 * v.cursorY + v.cursorX then charCell c v.attr else v.vid i := by
  have kept (w : Video) : (wrapLine w).vid = w.vid := by
    unfold wrapLine
    split <;> rfl
  unfold literal Writes
  rw [kept]
  by_cases newline : c = chr '\n'
  · simp [newline]
  by_cases tab : c = chr '\t'
  · simp +decide [tab]
  · simp [newline, tab, putChar, Function.update_apply, Nat.mul_comm 80]

theorem consume_place (t : Terminal) (attr : Nat) (c : UInt8) :
    ((t.consume attr c).x, (t.consume attr c).y) = place (t.x, t.y) c := by
  unfold Terminal.consume place
  by_cases newline : c = chr '\n'
  · simp only [if_pos newline]
    rfl
  by_cases tab : c = chr '\t'
  · simp only [if_neg newline, if_pos tab, Terminal.tab]
    split <;> rfl
  · simp only [if_neg newline, if_neg tab, Terminal.put]
    split <;> rfl

theorem consume_cells (t : Terminal) (attr : Nat) (c : UInt8) (row column : Nat) :
    (t.consume attr c).cells row column =
      if Writes c ∧ row = t.y ∧ column = t.x then c.toNat + 256 * attr else t.cells row column := by
  have kept (u : Terminal) : (if u.x ≥ 80 then u.newRow else u).cells = u.cells := by
    split <;> rfl
  unfold Terminal.consume Writes
  rw [kept]
  by_cases newline : c = chr '\n'
  · simp [newline, Terminal.newRow]
  by_cases tab : c = chr '\t'
  · simp +decide [tab, Terminal.tab]
  · simp [newline, tab, Terminal.put]

/-- The console follows the terminal, at once or with the last scroll still to come. -/
structure Follows (start v : Video) (t : Terminal) : Prop where
  column : v.cursorX < 80
  attr : v.attr = start.attr
  outside : ∀ i, 2000 ≤ i → v.vid i = start.vid i
  screen : v.cursorY < 25 ∧ Shows v t ∨ Pending v t

variable {start : Video}

theorem Follows.row (follows : Follows start v t) : v.cursorY ≤ 25 := by
  cases follows.screen with
  | inl shows_ => omega
  | inr pending => exact Nat.le_of_eq pending.row

theorem place_row (pos : Nat × Nat) (c : UInt8) :
    pos.2 ≤ (place pos c).2 ∧ (place pos c).2 ≤ pos.2 + 1 := by
  unfold place
  by_cases newline : c = chr '\n'
  · simp [newline]
  · by_cases tab : c = chr '\t'
    · simp only [if_neg newline, if_pos tab]
      split <;> simp
    · simp only [if_neg newline, if_neg tab]
      split <;> simp

theorem Follows.above (follows : Follows start v t) (above : v.cursorY < 25)
    (ascii : c < 128) (small : start.attr < 256) :
    Follows start (literal v c) (t.feed start.attr c) := by
  have column := follows.column
  obtain ⟨at_, column', attr⟩ := literal_place (c := c) column (Nat.le_of_lt above)
  have shows_ : Shows v t := by
    cases follows.screen with
    | inl shows_ => exact shows_.2
    | inr pending => exact absurd pending.row (by omega)
  have place' := consume_place t start.attr c
  rw [← shows_.x, ← shows_.y, ← at_] at place'
  obtain ⟨sameX, sameY⟩ := Prod.mk.inj place'
  have rows := place_row (v.cursorX, v.cursorY) c
  rw [← at_] at rows
  simp only at rows
  have cells (row : Nat) (lower : row < 25) (k : Nat) (within : k < 80) :
      (literal v c).vid (80 * row + k) = (t.consume start.attr c).cells row k := by
    rw [literal_vid, consume_cells, ← shows_.x, ← shows_.y, follows.attr,
      charCell_ascii ascii small, shows_.cells row lower k within]
    simp only [show (80 * row + k = 80 * v.cursorY + v.cursorX) ↔
      (row = v.cursorY ∧ k = v.cursorX) by omega]
  refine ⟨column', attr.trans follows.attr, ?_, ?_⟩
  · intro i upper
    rw [literal_vid, if_neg (by omega)]
    exact follows.outside i upper
  · unfold Terminal.feed
    by_cases below : (literal v c).cursorY = 25
    · rw [if_pos (by omega)]
      refine Or.inr ⟨sameX.symm, below, ?_, ?_, ?_⟩
      · simp only [Terminal.scroll]
        omega
      · intro row lower k within
        simp only [Terminal.scroll, if_pos lower]
        exact cells (row + 1) (by omega) k within
      · intro k within
        simp [Terminal.scroll, attr, follows.attr]
    · rw [if_neg (by omega)]
      exact Or.inl ⟨by omega, sameX.symm, sameY.symm, cells⟩

theorem place_tab {x y : Nat} (stays : (place (x, y) (chr '\t')).2 = y) (y' : Nat) :
    place (x, y') (chr '\t') = (8 * (x / 8 + 1), y') := by
  have tab : ¬ chr '\t' = chr '\n' := by decide
  simp only [place, if_neg tab, if_true] at stays ⊢
  by_cases wraps : 8 * (x / 8 + 1) ≥ 80
  · rw [if_pos wraps] at stays
    simp at stays
  · rw [if_neg wraps]

theorem Follows.below (follows : Follows start v t) (pending : Pending v t)
    (stays : (place (v.cursorX, v.cursorY) (chr '\t')).2 = v.cursorY) :
    Follows start (literal v (chr '\t')) (t.feed start.attr (chr '\t')) := by
  obtain ⟨at_, column', attr⟩ := literal_place (c := chr '\t') follows.column follows.row
  have noWrite : ¬ Writes (chr '\t') := by decide
  have vid (i : Nat) : (literal v (chr '\t')).vid i = v.vid i := by
    rw [literal_vid, if_neg (fun both => noWrite both.1)]
  have moved := consume_place t start.attr (chr '\t')
  rw [← pending.x, place_tab stays] at moved
  rw [place_tab stays] at at_
  obtain ⟨x, y⟩ := Prod.mk.inj at_
  obtain ⟨x', y'⟩ := Prod.mk.inj moved
  have cells (row k : Nat) : (t.consume start.attr (chr '\t')).cells row k = t.cells row k := by
    rw [consume_cells, if_neg (fun both => noWrite both.1)]
  have onScreen : ¬ (t.consume start.attr (chr '\t')).y ≥ 25 := by
    rw [y', pending.y]
    decide
  refine ⟨column', attr.trans follows.attr, ?_, Or.inr ?_⟩
  · intro i upper
    rw [vid]
    exact follows.outside i upper
  · unfold Terminal.feed
    rw [if_neg onScreen]
    refine ⟨x.trans x'.symm, y.trans pending.row, y'.trans pending.y, ?_, ?_⟩
    · intro row lower k within
      rw [vid, cells]
      exact pending.cells row lower k within
    · intro k within
      rw [cells, pending.last k within, attr]

theorem Follows.text (text : List UInt8) {v : Video} {t : Terminal} (follows : Follows start v t)
    (small : start.attr < 256) (ascii : ∀ c ∈ text, c < 128)
    (settles : Settles (v.cursorX, v.cursorY) text) :
    Follows start (text.foldl literal v) (text.foldl (Terminal.feed start.attr) t) := by
  induction text generalizing v t with
  | nil => exact follows
  | cons c rest ih =>
    obtain ⟨here, later⟩ := settles
    obtain ⟨at_, -, -⟩ := literal_place (c := c) follows.column follows.row
    have next : Follows start (literal v c) (t.feed start.attr c) := by
      cases follows.screen with
      | inl shows_ => exact follows.above shows_.1 (ascii c List.mem_cons_self) small
      | inr pending =>
        obtain ⟨rfl, stays⟩ := here.resolve_left (by simp only [pending.row]; decide)
        exact follows.below pending stays
    refine ih next (fun d member => ascii d (List.mem_cons_of_mem _ member)) ?_
    rw [at_]
    exact later

theorem Pending.scrolled (pending : Pending v t) (small : v.attr < 256) :
    Shows (scrollScreen v) t := by
  have below : v.cursorY ≥ 25 := Nat.le_of_eq pending.row.symm
  constructor
  case x =>
    unfold scrollScreen
    rw [if_pos below]
    exact pending.x
  case y =>
    unfold scrollScreen
    rw [if_pos below]
    exact pending.y.symm
  case cells =>
    intro row lower k within
    rw [scrollScreen_cells below]
    by_cases upper : row < 24
    · rw [if_pos (by omega), ← pending.cells row upper k within]
      congr 1
      omega
    · obtain rfl : row = 24 := by omega
      rw [if_neg (by omega), if_pos (by omega), blankCell_eq small, pending.last k within]

/--
A text without directives and with ASCII bytes leaves the screen and the cursor as the terminal
does, when only tabs that stay on their row follow the break that takes the cursor below the screen.
-/
theorem kprintf_matches (str : CString) (args : Varargs) (v : Video) (column : v.cursorX < 80)
    (row : v.cursorY < 25) (small : v.attr < 256) (plain : chr '%' ∉ str.bytes)
    (ascii : ∀ c ∈ str.bytes, c < 128) (settles : Settles (v.cursorX, v.cursorY) str.bytes) :
    ∃ result, kprintf str args v = .ok result ∧ Matches str args v result := by
  have start : Follows v v (terminalOf v) :=
    ⟨column, rfl, fun _ _ => rfl, Or.inl ⟨row, rfl, rfl, fun _ _ _ _ => rfl⟩⟩
  have follows := start.text str.bytes small ascii settles
  refine ⟨_, kprintf_literal v plain, ?_⟩
  have screen : Shows (scrollScreen (str.bytes.foldl literal v))
      (str.bytes.foldl (Terminal.feed v.attr) (terminalOf v)) := by
    cases follows.screen with
    | inl shows_ =>
      rw [scrollScreen_above shows_.1]
      exact shows_.2
    | inr pending => exact pending.scrolled (by rw [follows.attr]; exact small)
  refine ⟨⟨screen.x, screen.y, screen.cells⟩, ?_⟩
  intro i upper
  change (scrollScreen (str.bytes.foldl literal v)).vid i = v.vid i
  rw [← follows.outside i upper]
  by_cases below : (str.bytes.foldl literal v).cursorY ≥ 25
  · rw [scrollScreen_cells below, if_neg (by omega), if_neg (by omega)]
  · rw [scrollScreen_above (by omega)]

-- a screen of zero cells with the cursor at the start of the last row
def lastRow : Video := { vid := fun _ => 0, cursorX := 0, cursorY := 24, attr := 7, ports := [] }

set_option maxRecDepth 100000 in
theorem kprintf_matches_newline : ∃ result,
    kprintf (.ofBytes [chr 'a', chr '\n']) noArgs lastRow = .ok result ∧
      Matches (.ofBytes [chr 'a', chr '\n']) noArgs lastRow result :=
  kprintf_matches _ _ _ (by decide) (by decide) (by decide) (by decide +kernel)
    (by decide +kernel) ⟨Or.inl (by decide), Or.inl (by decide +kernel), trivial⟩

set_option maxRecDepth 100000 in
/-- A character after the line break of the last row lands behind the screen. -/
theorem kprintf_behind_screen :
    ¬ ∃ result, kprintf (.ofBytes [chr '\n', chr 'A']) noArgs lastRow = .ok result ∧
      Matches (.ofBytes [chr '\n', chr 'A']) noArgs lastRow result := by
  rintro ⟨result, printed, matches_⟩
  rw [kprintf_literal lastRow (by decide +kernel)] at printed
  have written : result.vid 2000 = 0 := matches_.outside 2000 (Nat.le_refl _)
  rw [← Except.ok.inj printed] at written
  exact absurd written (by decide +kernel)

theorem charCell_ne_zero (attr : Nat) (nonzero : c ≠ 0) : charCell c attr ≠ 0 := by
  intro zero
  have low := charCell_low c attr
  rw [zero] at low
  exact nonzero (UInt8.toNat_inj.mp low.symm)

-- a cell that is not zero stays so: no character has the value 0
theorem foldl_literal_ne_zero (text : List UInt8) (nonzero : ∀ c ∈ text, c ≠ 0) {v : Video}
    {i : Nat} (written : v.vid i ≠ 0) : (text.foldl literal v).vid i ≠ 0 := by
  induction text generalizing v with
  | nil => exact written
  | cons c rest ih =>
    refine ih (fun d member => nonzero d (List.mem_cons_of_mem _ member)) ?_
    rw [literal_vid]
    split
    · exact charCell_ne_zero _ (nonzero c List.mem_cons_self)
    · exact written

theorem kprintf_spills {str : CString} {args : Varargs} {v : Video}
    (plain : chr '%' ∉ str.bytes) (zero : ∀ i, 2000 ≤ i → v.vid i = 0)
    {before rest : List UInt8} (split : str.bytes = before ++ c :: rest) (writes : Writes c)
    (below : (before.foldl literal v).cursorY ≥ 25) :
    ∃ result, kprintf str args v = .ok result ∧ ¬ Matches str args v result := by
  refine ⟨_, kprintf_literal v plain, fun matches_ => ?_⟩
  let w := before.foldl literal v
  let cell := 80 * w.cursorY + w.cursorX
  have behind : 2000 ≤ cell := by
    have row : w.cursorY ≥ 25 := below
    omega
  have nonzero (d : UInt8) (member : d ∈ c :: rest) : d ≠ 0 :=
    str.nonzero d (split ▸ List.mem_append_right _ member)
  have put : (literal w c).vid cell ≠ 0 := by
    rw [literal_vid, if_pos ⟨writes, rfl⟩]
    exact charCell_ne_zero _ (nonzero c List.mem_cons_self)
  have last : (str.bytes.foldl literal v).vid cell ≠ 0 := by
    rw [split, List.foldl_append, List.foldl_cons]
    exact foldl_literal_ne_zero rest (fun d member => nonzero d (List.mem_cons_of_mem _ member)) put
  have kept := matches_.outside cell behind
  change (scrollScreen (str.bytes.foldl literal v)).vid cell = v.vid cell at kept
  rw [zero cell behind] at kept
  by_cases lower : (str.bytes.foldl literal v).cursorY ≥ 25
  · rw [scrollScreen_cells lower, if_neg (by omega), if_neg (by omega)] at kept
    exact last kept
  · rw [scrollScreen_above (by omega)] at kept
    exact last kept

end GekonOS.Console
