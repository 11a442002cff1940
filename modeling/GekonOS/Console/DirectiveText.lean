import GekonOS.Console.Prompt

set_option autoImplicit false

namespace GekonOS.DirectiveText

open Cursor Console Prompt Digits

/-- Both calls return, with the same cells and the same cursor. -/
def SameText (first second : Except Fault Video) : Prop :=
  ∃ v w, first = .ok v ∧ second = .ok w ∧
    v.vid = w.vid ∧ v.cursorX = w.cursorX ∧ v.cursorY = w.cursorY

variable {v : Video} {text : List UInt8}

theorem putBuffer_snoc (text : List UInt8) (c : UInt8) (v : Video) :
    (putBuffer (text ++ [c]) v).vid =
      Function.update (putBuffer text v).vid (position v + text.length) (charCell c v.attr) := by
  unfold putBuffer position
  simp only [List.zipIdx_append, List.foldl_append, Nat.zero_add, Nat.mul_comm 80]
  rfl

/-- What the two paths agree on after some characters. -/
structure Typed (v w : Video) (text : List UInt8) : Prop where
  cells : w.vid = (putBuffer text v).vid
  moved : position w = position v + text.length
  column : w.cursorX < 80
  attr : w.attr = v.attr

theorem Typed.literal {w : Video} {c : UInt8} (typed : Typed v w text)
    (room : position v + text.length < 2000) (writes : Writes c) :
    Typed v (literal w c) (text ++ [c]) := by
  have at_ := typed.moved
  have row : w.cursorY < 25 := by
    unfold position at at_ room
    omega
  obtain ⟨-, column, attr⟩ := literal_place (c := c) typed.column (Nat.le_of_lt row)
  refine ⟨?_, ?_, column, attr.trans typed.attr⟩
  · funext i
    have cursor : 80 * w.cursorY + w.cursorX = position v + text.length := at_
    rw [literal_vid, putBuffer_snoc, Function.update_apply, cursor, typed.cells, typed.attr]
    simp only [writes, true_and]
  · rw [literal_position typed.column row writes, at_, List.length_append, List.length_singleton,
      Nat.add_assoc]

-- one test for each cell never lets the column pass the margin
theorem foldl_typed (column : v.cursorX < 80) (room : position v + text.length ≤ 2000)
    (writes : ∀ c ∈ text, Writes c) : Typed v (text.foldl literal v) text := by
  induction text using List.reverseRecOn with
  | nil => exact ⟨rfl, rfl, column, rfl⟩
  | append_singleton text c ih =>
    rw [List.length_append, List.length_singleton] at room
    have earlier := ih (by omega) (fun d member => writes d (List.mem_append_left _ member))
    rw [List.foldl_append]
    exact earlier.literal (by omega) (writes c (List.mem_append_right _ List.mem_cons_self))

-- the whole length is added to the column, and what crosses the margin is dropped
theorem wrapLine_putBuffer (short : text.length ≤ 19) (column : v.cursorX < 80)
    (row : v.cursorY < 24) :
    ((wrapLine (putBuffer text v)).cursorX, (wrapLine (putBuffer text v)).cursorY) =
      if v.cursorX + text.length ≥ 80 then (0, v.cursorY + 1)
      else (v.cursorX + text.length, v.cursorY) := by
  have whole : (putBuffer text v).cursorX = v.cursorX + text.length := Nat.mod_eq_of_lt (by omega)
  have same : (putBuffer text v).cursorY = v.cursorY := rfl
  have next : (v.cursorY + 1) % 256 = v.cursorY + 1 := Nat.mod_eq_of_lt (by omega)
  unfold wrapLine
  rw [whole]
  split
  next => simp only [same, next]
  next => rw [whole, same]

theorem wrapLine_vid (v : Video) : (wrapLine v).vid = v.vid := by
  unfold wrapLine
  split <;> rfl

theorem wrapLine_row (short : text.length ≤ 19) (column : v.cursorX < 80) (row : v.cursorY < 24) :
    (wrapLine (putBuffer text v)).cursorY < 25 := by
  have wrapped := wrapLine_putBuffer short column row
  split at wrapped
  next =>
    obtain ⟨-, y⟩ := Prod.mk.inj wrapped
    omega
  next =>
    obtain ⟨-, y⟩ := Prod.mk.inj wrapped
    omega

theorem Typed.cursor {w : Video} (typed : Typed v w text) (short : text.length ≤ 19)
    (column : v.cursorX < 80) (row : v.cursorY < 24) :
    (wrapLine (putBuffer text v)).cursorX = w.cursorX ∧
        (wrapLine (putBuffer text v)).cursorY = w.cursorY ↔
      v.cursorX + text.length ≤ 80 := by
  have wrapped := wrapLine_putBuffer short column row
  have moved := typed.moved
  have within := typed.column
  unfold position at moved
  split at wrapped
  next =>
    obtain ⟨x, y⟩ := Prod.mk.inj wrapped
    omega
  next =>
    obtain ⟨x, y⟩ := Prod.mk.inj wrapped
    omega

variable {format str : CString} {args : Varargs}

/-- A call that puts its buffer on the screen and nothing else. -/
theorem sameText_buffer
    (result : kprintf format args v =
      .ok (moveCursor (scrollScreen (wrapLine (putBuffer str.bytes v)))))
    (column : v.cursorX < 80) (row : v.cursorY < 24) (short : str.bytes.length ≤ 19)
    (writes : ∀ c ∈ str.bytes, Writes c) (plain : chr '%' ∉ str.bytes) :
    SameText (kprintf format args v) (kprintf str noArgs v) ↔
      v.cursorX + str.bytes.length ≤ 80 := by
  have typed := foldl_typed column (by unfold position; omega) writes
  have above : (str.bytes.foldl literal v).cursorY < 25 := by
    have moved := typed.moved
    unfold position at moved
    omega
  have cells : (wrapLine (putBuffer str.bytes v)).vid = (str.bytes.foldl literal v).vid := by
    rw [wrapLine_vid, typed.cells]
  rw [← typed.cursor short column row, result, kprintf_literal v plain, scrollScreen_above above,
    scrollScreen_above (wrapLine_row short column row)]
  constructor
  · rintro ⟨w, w', first, second, -, cursor⟩
    cases first
    cases second
    exact cursor
  · intro cursor
    exact ⟨_, _, rfl, rfl, cells, cursor⟩

def stringArg (t : CString) : Varargs := { noArgs with string := fun _ => t }

def intArg (value : BitVec 32) : Varargs := { noArgs with int := fun _ => value }

theorem kprintf_string (t : CString) (v : Video) (short : t.bytes.length ≤ 19) :
    kprintf (.ofString "%s") (stringArg t) v =
      .ok (moveCursor (scrollScreen (wrapLine (putBuffer t.bytes v)))) := by
  have format : (CString.ofString "%s").bytes = [chr '%', chr 's'] := by decide
  have second : (CString.ofString "%s").charAt 1 = .ok (chr 's') := by decide
  have fits : toBuffer ((stringArg t).string 0).bytes = .ok t.bytes := toBuffer_short short
  apply kprintf_single format
  simp +decide [directive, second, fits, bind, Except.bind, pure, Except.pure]

theorem kprintf_int (value : BitVec 32) (v : Video) (digits : itoa value.toInt 10 = .ok text)
    (short : text.length ≤ 19) :
    kprintf (.ofString "%d") (intArg value) v =
      .ok (moveCursor (scrollScreen (wrapLine (putBuffer text v)))) := by
  have format : (CString.ofString "%d").bytes = [chr '%', chr 'd'] := by decide
  have second : (CString.ofString "%d").charAt 1 = .ok (chr 'd') := by decide
  have converted : itoa ((intArg value).int 0).toInt 10 = .ok text := digits
  apply kprintf_single format
  simp +decide [directive, second, converted, toBuffer_short short, bind, Except.bind, pure,
    Except.pure]

theorem plain_writes {c : UInt8} (plain : Plain c) : Writes c ∧ c ≠ chr '%' := by
  refine ⟨⟨?_, ?_⟩, ?_⟩ <;>
  · rintro rfl
    exact absurd plain (by decide)

theorem sameText_string (t : CString) (column : v.cursorX < 80) (row : v.cursorY < 24)
    (short : t.bytes.length ≤ 19) (printable : ∀ c ∈ t.bytes, Printable c ∧ c ≠ chr '%') :
    SameText (kprintf (.ofString "%s") (stringArg t) v) (kprintf t noArgs v) ↔
      v.cursorX + t.bytes.length ≤ 80 :=
  sameText_buffer (kprintf_string t v short) column row short
    (fun c member => (printable c member).1.writes)
    (fun member => (printable _ member).2 rfl)

theorem sameText_int (value : BitVec 32) (column : v.cursorX < 80) (row : v.cursorY < 24) :
    ∃ digits : CString, itoa value.toInt 10 = .ok digits.bytes ∧
      (SameText (kprintf (.ofString "%d") (intArg value) v) (kprintf digits noArgs v) ↔
        v.cursorX + digits.bytes.length ≤ 80) := by
  obtain ⟨s, digits, text⟩ := itoa_decimal value
  have short : s.length ≤ 19 := Nat.le_trans text.length (by decide)
  have shown : kprintf (.ofString "%d") (intArg value) v =
      .ok (moveCursor (scrollScreen (wrapLine (putBuffer (CString.mk s text.nonzero).bytes v)))) :=
    kprintf_int value v digits short
  refine ⟨⟨s, text.nonzero⟩, digits, sameText_buffer shown column row short ?_ ?_⟩
  · exact fun c member => (plain_writes (text.plain c member)).1
  · exact fun member => (plain_writes (text.plain _ member)).2 rfl

/--
A directive leaves the cells and the cursor as its text does if and only if the text does not cross
the right margin.
-/
theorem sameText_iff (v : Video) (t : CString) (value : BitVec 32) (column : v.cursorX < 80)
    (row : v.cursorY < 24) (length : 1 ≤ t.bytes.length ∧ t.bytes.length ≤ 19)
    (printable : ∀ c ∈ t.bytes, Printable c ∧ c ≠ chr '%') :
    (SameText (kprintf (.ofString "%s") (stringArg t) v) (kprintf t noArgs v) ↔
      v.cursorX + t.bytes.length ≤ 80) ∧
    ∃ digits : CString, itoa value.toInt 10 = .ok digits.bytes ∧
      (SameText (kprintf (.ofString "%d") (intArg value) v) (kprintf digits noArgs v) ↔
        v.cursorX + digits.bytes.length ≤ 80) :=
  ⟨sameText_string t column row length.2 printable, sameText_int value column row⟩

-- one column is left on the top row
def lastColumn : Video := { vid := fun _ => 0, cursorX := 79, cursorY := 0, attr := 7, ports := [] }

theorem sameText_iff_letters :
    (SameText (kprintf (.ofString "%s") (stringArg (.ofString "ab")) lastColumn)
      (kprintf (.ofString "ab") noArgs lastColumn) ↔ 79 + 2 ≤ 80) ∧
    ∃ digits : CString, itoa (BitVec.toInt 7#32) 10 = .ok digits.bytes ∧
      (SameText (kprintf (.ofString "%d") (intArg 7) lastColumn)
        (kprintf digits noArgs lastColumn) ↔ 79 + digits.bytes.length ≤ 80) :=
  sameText_iff lastColumn (.ofString "ab") 7 (by decide) (by decide) (by decide) (by decide +kernel)

/-- The second letter is put on the next row, and the cursor before it. -/
theorem margin_crossed :
    ¬ SameText (kprintf (.ofString "%s") (stringArg (.ofString "ab")) lastColumn)
      (kprintf (.ofString "ab") noArgs lastColumn) := by
  intro same
  have fits := (sameText_string (v := lastColumn) (.ofString "ab") (by decide) (by decide)
    (by decide) (by decide +kernel)).mp same
  exact absurd fits (by decide)

end GekonOS.DirectiveText
