import GekonOS.Console.Cursor

set_option autoImplicit false

namespace GekonOS

open Loop

-- a turn of the loop of `kprintf` for a character that starts no directive
def literal (v : Video) (c : UInt8) : Video :=
  wrapLine
    (if c = chr '\n' then { v with cursorX := 0, cursorY := (v.cursorY + 1) % 256 }
    else if c = chr '\t' then { v with cursorX := ((v.cursorX + 8) &&& 0xFFFFFFF8) % 256 }
    else putChar c v)

variable {str : CString} {args : Varargs} {p : Printing}

theorem kprintfTurn_literal (within : p.i < str.bytes.length)
    (plain : str.bytes[p.i] ≠ chr '%') :
    kprintfTurn str args p =
      .ok { p with i := p.i + 1, video := literal p.video str.bytes[p.i] } := by
  unfold kprintfTurn literal
  rw [Cursor.charAt_inside within]
  simp only [bind, Except.bind, pure, Except.pure]
  by_cases newline : str.bytes[p.i] = chr '\n'
  · simp only [if_pos newline]
  · by_cases tab : str.bytes[p.i] = chr '\t'
    · simp only [if_neg newline, if_pos tab]
    · simp only [if_neg newline, if_neg tab, if_neg plain]

theorem kprintf_literal (v : Video) (plain : chr '%' ∉ str.bytes) :
    kprintf str args v = .ok (moveCursor (scrollScreen (str.bytes.foldl literal v))) := by
  obtain ⟨p, result, ⟨inside, consumed⟩, stop⟩ := whileLoop_total Fault.outOfFuel
    (fun p : Printing => do
      let c ← str.charAt p.i
      pure (decide (c ≠ 0)))
    (kprintfTurn str args)
    (fun p => p.i ≤ str.bytes.length ∧ p.video = (str.bytes.take p.i).foldl literal v)
    (fun p => str.bytes.length - p.i)
    (str.bytes.length + 1) { i := 0, taken := 0, video := v } ⟨Nat.zero_le _, rfl⟩
    (by simp only; omega)
    (by
      rintro p ⟨inside, _⟩
      obtain ⟨c, read, -⟩ := Cursor.charAt_some inside
      exact ⟨_, by rw [read]; rfl⟩)
    (by
      rintro p ⟨inside, consumed⟩ test
      obtain ⟨c, read, nonzero⟩ := Cursor.charAt_some inside
      simp only [read, bind, Except.bind, pure, Except.pure, Except.ok.injEq,
        decide_eq_true_eq] at test
      have within := nonzero.mp test
      have other : str.bytes[p.i] ≠ chr '%' := fun same => plain (same ▸ List.getElem_mem within)
      refine ⟨_, kprintfTurn_literal within other, ⟨within, ?_⟩, by simp only; omega⟩
      rw [consumed, List.take_succ_eq_append_getElem within, List.foldl_append]
      rfl)
  obtain ⟨c, read, nonzero⟩ := Cursor.charAt_some inside
  simp only [read, bind, Except.bind, pure, Except.pure, Except.ok.injEq,
    decide_eq_false_iff_not] at stop
  have all : str.bytes.length ≤ p.i := Nat.le_of_not_lt (fun within => stop (nonzero.mpr within))
  rw [List.take_of_length_le all] at consumed
  rw [kprintf, result, ← consumed]
  rfl

theorem kprintf_single {letter : UInt8} {v w : Video} (format : str.bytes = [chr '%', letter])
    (result : directive str args { i := 0, taken := 0, video := v } =
      .ok { i := 1, taken := 1, video := w }) :
    kprintf str args v = .ok (moveCursor (scrollScreen (wrapLine w))) := by
  have length : str.bytes.length = 2 := by rw [format]; rfl
  have first : str.charAt 0 = .ok (chr '%') :=
    Cursor.charAt_drop (show str.bytes.drop 0 = [] ++ chr '%' :: [letter] from format)
  have last : str.charAt 2 = .ok 0 := Cursor.charAt_end length.symm
  have within : ({ i := 0, taken := 0, video := v } : Printing).i < str.bytes.length := by
    rw [length]
    exact Nat.zero_lt_two
  have percent : str.bytes[({ i := 0, taken := 0, video := v } : Printing).i] = chr '%' := by
    simp only [format, List.getElem_cons_zero]
  have turn := Cursor.kprintfTurn_percent args within percent
  rw [result] at turn
  unfold kprintf
  rw [length]
  simp +decide [whileLoop, first, last, turn, bind, Except.bind, pure, Except.pure, Except.map]

section Cells

variable {vid : Nat → Nat}

theorem foldl_fill (base blank n i : Nat) :
    (List.range n).foldl (fun vid i => Function.update vid (base + i) blank) vid i =
      if base ≤ i ∧ i < base + n then blank else vid i := by
  induction n with
  | zero => rw [if_neg (by omega)]; rfl
  | succ n ih =>
    rw [List.range_succ, List.foldl_append, List.foldl_cons, List.foldl_nil]
    by_cases here : i = base + n
    · rw [here, Function.update_self, if_pos (by omega)]
    · rw [Function.update_of_ne here, ih]
      simp only [show (base ≤ i ∧ i < base + n) ↔ (base ≤ i ∧ i < base + (n + 1)) by omega]

-- each cell is read before it is written, so that the shift moves the old ones
theorem foldl_shift (n i : Nat) :
    (List.range n).foldl (fun vid i => Function.update vid i (vid (i + 80))) vid i =
      if i < n then vid (i + 80) else vid i := by
  induction n generalizing i with
  | zero => rfl
  | succ n ih =>
    rw [List.range_succ, List.foldl_append, List.foldl_cons, List.foldl_nil]
    by_cases here : i = n
    · subst here
      rw [Function.update_self, ih, if_neg (by omega), if_pos (by omega)]
    · rw [Function.update_of_ne here, ih]
      simp only [show i < n ↔ i < n + 1 by omega]

end Cells

theorem scrollScreen_cells {v : Video} (below : v.cursorY ≥ 25) (i : Nat) :
    (scrollScreen v).vid i =
      if i < 1920 then v.vid (i + 80) else if i < 2000 then blankCell v.attr else v.vid i := by
  unfold scrollScreen
  simp only [if_pos below]
  rw [foldl_fill, foldl_shift]
  split_ifs <;> first | rfl | omega

theorem scrollScreen_above {v : Video} (above : v.cursorY < 25) : scrollScreen v = v :=
  if_neg (by omega)

-- a cell with a character below 128 carries the attribute in its high byte
theorem charCell_ascii {c : UInt8} {attr : Nat} (ascii : c < 128) (small : attr < 256) :
    charCell c attr = c.toNat + 256 * attr := by
  have low : c.toNat < 128 := UInt8.lt_iff_toNat_lt.mp ascii
  have split : c.toNat ||| attr <<< 8 = attr <<< 8 + c.toNat := by
    rw [Nat.lor_comm, ← Nat.shiftLeft_add_eq_or_of_lt (by omega)]
  rw [charCell, if_pos low, split, Nat.shiftLeft_eq]
  omega

-- whatever the attribute, the low byte is the character
theorem charCell_low (c : UInt8) (attr : Nat) : charCell c attr % 256 = c.toNat := by
  have low : (if c.toNat < 128 then c.toNat else 0xFF00 + c.toNat) % 2 ^ 8 = c.toNat := by
    have small := c.toNat_lt
    split <;> omega
  have shifted : attr <<< 8 % 2 ^ 8 = 0 := by
    rw [Nat.shiftLeft_eq]
    exact Nat.mul_mod_left _ _
  rw [charCell, show (65536 : Nat) = 2 ^ 8 * 2 ^ 8 from rfl, show (256 : Nat) = 2 ^ 8 from rfl,
    Nat.mod_mul_right_mod, Nat.or_mod_two_pow, low, shifted, Nat.or_zero]

theorem blankCell_eq {attr : Nat} (small : attr < 256) : blankCell attr = 32 + 256 * attr := by
  have split : 32 ||| attr <<< 8 = attr <<< 8 + 32 := by
    rw [Nat.lor_comm, ← Nat.shiftLeft_add_eq_or_of_lt (by decide)]
  rw [blankCell, split, Nat.shiftLeft_eq]
  omega

end GekonOS
