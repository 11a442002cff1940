import GekonOS.Console.Terminal
import GekonOS.Input.Line
import Mathlib.Data.List.Infix

set_option autoImplicit false

namespace GekonOS.Prompt

open Cursor Console

def colorOf (color : String) : UInt8 := if color = "GREEN" then colorGreen else colorLightGrey

-- an `unsigned char` is passed as an `int`
def charArg (key : UInt8) : Varargs := { noArgs with int := fun _ => BitVec.ofNat 32 key.toNat }

/-- The calls of the shell, with the registers that `dump` reads. -/
def callsOf (registers : Nat → BitVec 32) : ConsoleCall → List Call
  | .setColor color => [.setColor (colorOf color)]
  | .kprintf text => [.kprintf (.ofString text) noArgs]
  | .kprintfChar key => [.kprintf (.ofString "%c") (charArg key)]
  | .kprintfRegisters => [
    .kprintf (.ofString "\tEAX=%08X   EBX=%08X   ECX=%08X   EDX=%08X\n")
      { noArgs with int := registers },
    .kprintf (.ofString "\tEDI=%08X   ESI=%08X   EBP=%08X   ESP=%08X\n")
      { noArgs with int := fun n => registers (n + 4) }]

def consoleCalls : ShellAction → List ConsoleCall
  | .quiet calls => calls
  | .getKey _ => []
  | .parseCli _ calls => calls

variable (registers : Nat → BitVec 32)

/-- A step of `lsh_loop` with what it does to the console. -/
def shellStep (s : Machine × Video) : Option (Machine × Video) := do
  let (machine, action) ← lshLoop s.1
  let video ← (perform s.2 ((consoleCalls action).flatMap (callsOf registers))).toOption
  pure (machine, video)

-- the `switch` on a key that `kbd_get_key` has returned
def handleKey (s : Machine × Video) (key : UInt8) : Option (Machine × Video) :=
  shellStep registers ({ s.1 with pc := .dispatch key }, s.2)

def position (v : Video) : Nat := 80 * v.cursorY + v.cursorX

-- the last `n` cells before the cursor
def cellsBefore (v : Video) (n : Nat) : List Nat :=
  (List.range n).map fun i => v.vid (position v - n + i)

def shown (text : List UInt8) (color : UInt8) : List Nat :=
  text.map (charCell · color.toNat)

/-- What stands before the cursor is the prompt and after it `cli[0..cli_len)`. -/
structure ShowsLine (s : Machine × Video) : Prop where
  room : 8 + s.1.cli.cliLen ≤ position s.2
  cells : cellsBefore s.2 (8 + s.1.cli.cliLen) =
    shown (bytesOf "[root]# ") colorGreen ++ shown (Line.typed s.1.cli) colorLightGrey

def Printable (key : UInt8) : Prop := 0x20 ≤ key ∧ key ≤ 0x7E

instance (key : UInt8) : Decidable (Printable key) := inferInstanceAs (Decidable (_ ∧ _))

/-! ## Printing on one row -/

variable {registers} {v w : Video} {c : UInt8} {n : Nat}

theorem literal_place_writes (column : v.cursorX < 80) (row : v.cursorY < 25)
    (writes : Writes c) :
    ((literal v c).cursorX, (literal v c).cursorY) =
      if v.cursorX + 1 ≥ 80 then (0, v.cursorY + 1) else (v.cursorX + 1, v.cursorY) := by
  obtain ⟨at_, -, -⟩ := literal_place (c := c) column (Nat.le_of_lt row)
  rw [at_]
  simp only [place, if_neg writes.1, if_neg writes.2]

theorem literal_position (column : v.cursorX < 80) (row : v.cursorY < 25) (writes : Writes c) :
    position (literal v c) = position v + 1 := by
  have at_ := literal_place_writes column row writes
  unfold position
  split at at_
  next wraps =>
    obtain ⟨x, y⟩ := Prod.mk.inj at_
    rw [x, y]
    omega
  next =>
    obtain ⟨x, y⟩ := Prod.mk.inj at_
    rw [x, y]
    omega

theorem literal_cellsBefore (column : v.cursorX < 80) (row : v.cursorY < 25) (writes : Writes c)
    (room : n ≤ position v) :
    cellsBefore (literal v c) (n + 1) = cellsBefore v n ++ [charCell c v.attr] := by
  unfold cellsBefore
  rw [literal_position column row writes, List.range_succ, List.map_append]
  congr 1
  · apply List.map_congr_left
    intro i member
    have within := List.mem_range.mp member
    have earlier : ¬ (position v + 1 - (n + 1) + i = 80 * v.cursorY + v.cursorX) := by
      unfold position at room ⊢
      omega
    rw [literal_vid, if_neg (fun both => earlier both.2)]
    congr 1
    omega
  · have here : position v + 1 - (n + 1) + n = 80 * v.cursorY + v.cursorX := by
      unfold position at room ⊢
      omega
    rw [List.map_singleton, literal_vid, if_pos ⟨writes, here⟩]

/-- The console after some characters of a call, which has not scrolled yet. -/
structure Wrote (v w : Video) (cells : List Nat) : Prop where
  column : w.cursorX < 80
  row : w.cursorY < 25 ∨ w.cursorY = 25 ∧ w.cursorX = 0
  attr : w.attr = v.attr
  moved : position w = position v + cells.length
  before : ∀ n, n ≤ position v → cellsBefore w (n + cells.length) = cellsBefore v n ++ cells

theorem Wrote.refl (column : v.cursorX < 80) (row : v.cursorY < 25) : Wrote v v [] :=
  ⟨column, Or.inl row, rfl, rfl, fun n _ => by rw [List.append_nil]; rfl⟩

theorem Wrote.literal {cells : List Nat} (wrote : Wrote v w cells) (row : w.cursorY < 25)
    (writes : Writes c) : Wrote v (literal w c) (cells ++ [charCell c v.attr]) := by
  obtain ⟨-, column, attr⟩ := literal_place (c := c) wrote.column (Nat.le_of_lt row)
  have at_ := literal_place_writes wrote.column row writes
  have moved := literal_position wrote.column row writes
  have from_ := wrote.moved
  refine ⟨column, ?_, attr.trans wrote.attr, ?_, ?_⟩
  · split at at_
    next =>
      obtain ⟨x, y⟩ := Prod.mk.inj at_
      omega
    next =>
      obtain ⟨x, y⟩ := Prod.mk.inj at_
      omega
  · rw [moved, from_, List.length_append, List.length_singleton]
    omega
  · intro n room
    rw [List.length_append, List.length_singleton, ← Nat.add_assoc,
      literal_cellsBefore wrote.column row writes (by omega), wrote.before n room, wrote.attr,
      List.append_assoc]

theorem literal_row {text : List UInt8} (fits : v.cursorX + text.length < 80)
    (row : v.cursorY < 25) (writes : ∀ c ∈ text, Writes c) :
    (text.foldl literal v).cursorX = v.cursorX + text.length ∧
      (text.foldl literal v).cursorY = v.cursorY := by
  induction text generalizing v with
  | nil => exact ⟨rfl, rfl⟩
  | cons c rest ih =>
    rw [List.length_cons] at fits
    have at_ := literal_place_writes (by omega) row (writes c List.mem_cons_self)
    rw [if_neg (by omega)] at at_
    obtain ⟨x, y⟩ := Prod.mk.inj at_
    obtain ⟨x', y'⟩ := ih (v := literal v c) (by omega) (by omega)
      (fun d member => writes d (List.mem_cons_of_mem _ member))
    rw [List.foldl_cons, x', y', x, y, List.length_cons]
    exact ⟨by omega, rfl⟩

theorem foldl_wrote {text : List UInt8} (column : v.cursorX < 80) (row : v.cursorY < 25)
    (fits : v.cursorX + text.length ≤ 80) (writes : ∀ c ∈ text, Writes c) :
    Wrote v (text.foldl literal v) (text.map (charCell · v.attr)) := by
  induction text using List.reverseRecOn with
  | nil => exact Wrote.refl column row
  | append_singleton text c ih =>
    rw [List.length_append, List.length_singleton] at fits
    have earlier (d : UInt8) (member : d ∈ text) : Writes d :=
      writes d (List.mem_append_left _ member)
    have stays := (literal_row (by omega) row earlier).2
    rw [List.foldl_append, List.map_append]
    exact (ih (by omega) earlier).literal (by omega)
      (writes c (List.mem_append_right _ List.mem_cons_self))

/-- A call has put `cells` before the cursor, after what stood there. -/
structure Printed (v w : Video) (cells : List Nat) : Prop where
  screen : OnScreen w
  attr : w.attr = v.attr
  room : ∀ n, n + cells.length ≤ 80 → n ≤ position v → n + cells.length ≤ position w
  before : ∀ n, n + cells.length ≤ 80 → n ≤ position v →
    cellsBefore w (n + cells.length) = cellsBefore v n ++ cells

-- the scroll takes the cells before the cursor with it
theorem Wrote.printed {cells : List Nat} (wrote : Wrote v w cells) :
    Printed v (moveCursor (scrollScreen w)) cells := by
  obtain ⟨screen, -, attr⟩ := scrollScreen_correct w wrote.column
  have from_ := wrote.moved
  cases wrote.row with
  | inl above =>
    rw [scrollScreen_above above] at screen ⊢
    refine ⟨⟨screen.column, screen.row⟩, wrote.attr, ?_, fun n _ room => wrote.before n room⟩
    intro n _ room
    change n + cells.length ≤ position w
    omega
  | inr last =>
    have below : w.cursorY ≥ 25 := Nat.le_of_eq last.1.symm
    have at_ : position w = 2000 := by
      rw [position, last.1, last.2]
    have moved : position (moveCursor (scrollScreen w)) = 1920 := by
      unfold position moveCursor scrollScreen
      rw [if_pos below]
      exact congrArg (80 * 24 + ·) last.2
    refine ⟨⟨screen.column, screen.row⟩, attr.trans wrote.attr, ?_, ?_⟩
    · intro n short _
      rw [moved]
      omega
    · intro n short room
      rw [← wrote.before n room]
      unfold cellsBefore
      rw [moved, at_]
      apply List.map_congr_left
      intro i member
      have within := List.mem_range.mp member
      change (scrollScreen w).vid _ = _
      rw [scrollScreen_cells below, if_pos (by omega)]
      congr 1
      omega

theorem kprintf_row {str : CString} {args : Varargs} (screen : OnScreen v)
    (fits : v.cursorX + str.bytes.length ≤ 80) (writes : ∀ c ∈ str.bytes, Writes c)
    (plain : chr '%' ∉ str.bytes) :
    ∃ w, kprintf str args v = .ok w ∧ Printed v w (str.bytes.map (charCell · v.attr)) :=
  ⟨_, kprintf_literal v plain, (foldl_wrote screen.column screen.row fits writes).printed⟩

theorem kprintf_row_column {str : CString} {args : Varargs} (row : v.cursorY < 25)
    (fits : v.cursorX + str.bytes.length < 80) (writes : ∀ c ∈ str.bytes, Writes c)
    (plain : chr '%' ∉ str.bytes) (printed : kprintf str args v = .ok w) :
    w.cursorX = v.cursorX + str.bytes.length := by
  obtain ⟨x, y⟩ := literal_row fits row writes
  rw [kprintf_literal v plain, scrollScreen_above (by omega)] at printed
  rw [← Except.ok.inj printed]
  exact x

/-! ## A key on the screen -/

-- `%c` puts any byte on the screen, a backspace like a letter
theorem kprintf_char (key : UInt8) (v : Video) :
    kprintf (.ofString "%c") (charArg key) v =
      .ok (moveCursor (scrollScreen (wrapLine (putChar key v)))) := by
  have arg : UInt8.ofNat ((charArg key).int 0).toNat = key := by
    have small := key.toNat_lt
    simp only [charArg, BitVec.toNat_ofNat]
    rw [Nat.mod_eq_of_lt (by omega), UInt8.ofNat_toNat]
  have format : (CString.ofString "%c").bytes = [chr '%', chr 'c'] := by decide
  have second : (CString.ofString "%c").charAt 1 = .ok (chr 'c') := by decide
  apply kprintf_single format
  simp +decide [directive, second, arg, bind, Except.bind, pure, Except.pure]

theorem kprintf_key (screen : OnScreen v) (writes : Writes c) :
    ∃ w, kprintf (.ofString "%c") (charArg c) v = .ok w ∧ Printed v w [charCell c v.attr] ∧
      (v.cursorX + 1 < 80 → w.cursorX = v.cursorX + 1) := by
  have same : literal v c = wrapLine (putChar c v) := by
    rw [literal, if_neg writes.1, if_neg writes.2]
  refine ⟨_, kprintf_char c v, ?_, ?_⟩
  · rw [← same]
    exact ((Wrote.refl screen.column screen.row).literal screen.row writes).printed
  · intro fits
    have single (d : UInt8) (member : d ∈ [c]) : Writes d := List.mem_singleton.mp member ▸ writes
    obtain ⟨x, y⟩ := literal_row fits screen.row single
    rw [List.foldl_cons, List.foldl_nil] at x y
    have row := screen.row
    rw [← same, scrollScreen_above (by omega)]
    exact x

theorem callsOf_fit (call : ConsoleCall) : ∀ c ∈ callsOf registers call, c.Fits := by
  cases call <;> simp [callsOf, Call.Fits, StringsFit, charArg, noArgs]

theorem perform_onScreen (calls : List Call) {v w : Video} (screen : OnScreen v)
    (fit : ∀ call ∈ calls, call.Fits) (performed : perform v calls = .ok w) : OnScreen w := by
  induction calls generalizing v with
  | nil =>
    cases performed
    exact screen
  | cons call calls ih =>
    have later (c : Call) (member : c ∈ calls) : c.Fits := fit c (List.mem_cons_of_mem _ member)
    have here := fit call List.mem_cons_self
    rw [perform, List.foldlM_cons] at performed
    cases call with
    | clearScreen =>
      simp only [Call.perform, bind, Except.bind] at performed
      exact ih (clearScreen_correct v) later performed
    | setColor color =>
      have screen' : OnScreen (GekonOS.setColor color v) := ⟨screen.column, screen.row⟩
      exact ih screen' later performed
    | kprintf str args =>
      obtain ⟨v', printed, screen', -⟩ := kprintf_correct v screen here
      simp only [Call.perform, printed, bind, Except.bind] at performed
      exact ih screen' later performed

/-! ## The line after some keys -/

-- the keys of the line: backspace, or a character of ASCII with a glyph
def LineKey (key : UInt8) : Prop := key = 8 ∨ Printable key

instance (key : UInt8) : Decidable (LineKey key) := inferInstanceAs (Decidable (_ ∨ _))

variable {s s' : Machine × Video} {key : UInt8} {before : List UInt8}

theorem LineKey.ne_zero (valid : LineKey key) : key ≠ 0 := by
  cases valid with
  | inl back => rw [back]; decide
  | inr printable =>
    intro zero
    rw [zero] at printable
    exact absurd printable.1 (by decide)

theorem Printable.ne_eight (printable : Printable key) : key ≠ 8 := by
  intro same
  rw [same] at printable
  exact absurd printable.1 (by decide)

theorem Printable.writes (printable : Printable key) : Writes key := by
  constructor
  · intro same
    rw [same] at printable
    exact absurd printable.1 (by decide)
  · intro same
    rw [same] at printable
    exact absurd printable.1 (by decide)

theorem handleKey_eq (nonzero : key ≠ 0) : handleKey registers s key =
    (editLine key s.1.cli).bind fun e =>
      (perform s.2 (e.2.flatMap (callsOf registers))).toOption.bind fun video =>
        some ({ s.1 with pc := if key = chr '\n' then .parse else .poll, cli := e.1 }, video) := by
  unfold handleKey shellStep lshLoop
  simp only [if_neg nonzero]
  cases editLine key s.1.cli <;> rfl

theorem handleKey_some (nonzero : key ≠ 0) (handled : handleKey registers s key = some s') :
    ∃ calls, editLine key s.1.cli = some (s'.1.cli, calls) ∧
      perform s.2 (calls.flatMap (callsOf registers)) = .ok s'.2 := by
  rw [handleKey_eq nonzero] at handled
  obtain ⟨⟨cli, calls⟩, edited, shown⟩ := Option.bind_eq_some_iff.mp handled
  obtain ⟨video, performed, same⟩ := Option.bind_eq_some_iff.mp shown
  cases same
  refine ⟨calls, edited, ?_⟩
  cases result : perform s.2 (calls.flatMap (callsOf registers)) with
  | error fault =>
    simp only [result] at performed
    cases performed
  | ok video' =>
    simp only [result] at performed
    cases performed
    rfl

/-- The edit buffer holds the edited keys, whatever the screen shows. -/
structure Edited (before : List UInt8) (s : Machine × Video) : Prop where
  bound : s.1.cli.cliLen ≤ 256
  typed : Line.typed s.1.cli = Line.edit before
  screen : OnScreen s.2

theorem Edited.length (edited : Edited before s) :
    s.1.cli.cliLen = (Line.edit before).length := by
  have bound := edited.bound
  rw [← edited.typed, Line.typed, List.length_take, Vector.length_toList]
  omega

theorem LineKey.ne_newline (valid : LineKey key) : key ≠ Line.newline := by
  cases valid with
  | inl back => rw [back]; decide
  | inr printable => exact printable.writes.1

theorem Edited.step (edited : Edited before s) (valid : LineKey key)
    (handled : handleKey registers s key = some s') : Edited (before ++ [key]) s' := by
  obtain ⟨calls, edit, performed⟩ := handleKey_some valid.ne_zero handled
  obtain ⟨bound, typed⟩ := Line.editLine_correct edit edited.bound
  refine ⟨bound, ?_, ?_⟩
  · rw [typed, if_neg valid.ne_newline, Line.edit_append, edited.typed]
  · refine perform_onScreen _ edited.screen ?_ performed
    intro call member
    obtain ⟨c, -, member⟩ := List.mem_flatMap.mp member
    exact callsOf_fit c call member

theorem Edited.run {keys : List UInt8} (start : Edited [] s) (valid : ∀ key ∈ keys, LineKey key)
    (handled : keys.foldlM (handleKey registers) s = some s') : Edited keys s' := by
  induction keys using List.reverseRecOn generalizing s' with
  | nil =>
    cases handled
    exact start
  | append_singleton keys key ih =>
    rw [List.foldlM_append] at handled
    obtain ⟨middle, earlier, last⟩ := Option.bind_eq_some_iff.mp handled
    have step : handleKey registers middle key = some s' := by
      simpa using last
    exact (ih (fun k member => valid k (List.mem_append_left _ member)) earlier).step
      (valid key (List.mem_append_right _ List.mem_cons_self)) step

/-! ## A backspace is one more glyph -/

theorem cellsBefore_last (room : n + 1 ≤ position v) :
    v.vid (position v - 1) ∈ cellsBefore v (n + 1) := by
  refine List.mem_map.mpr ⟨n, List.mem_range.mpr (Nat.lt_succ_self n), ?_⟩
  congr 1
  omega

theorem eight_not_mem_edit (segment : List UInt8) : 8 ∉ Line.edit segment := by
  induction segment using List.reverseRecOn with
  | nil => exact List.not_mem_nil
  | append_singleton segment key ih =>
    rw [Line.edit_append, Line.editKey]
    intro member
    split at member
    next => exact ih (List.dropLast_subset _ member)
    next other =>
      split at member
      next => exact ih member
      next =>
        cases List.mem_append.mp member with
        | inl earlier => exact ih earlier
        | inr here => exact other (List.mem_singleton.mp here).symm

theorem mem_shown {cell : Nat} {text : List UInt8} {color : UInt8}
    (member : cell ∈ shown text color) : ∃ c ∈ text, cell % 256 = c.toNat := by
  obtain ⟨c, here, same⟩ := List.mem_map.mp member
  exact ⟨c, here, by rw [← same, charCell_low]⟩

-- the cell before the cursor then holds the glyph of the key
theorem erase_cell (screen : OnScreen v)
    (performed : perform v
      ([.kprintfChar 8, .kprintf " ", .kprintfChar 8].flatMap (callsOf registers)) = .ok w) :
    1 ≤ position w ∧ w.vid (position w - 1) % 256 = 8 := by
  obtain ⟨v1, first, row1, -⟩ := kprintf_key (c := 8) screen (by decide)
  obtain ⟨v2, second, screen2, -⟩ := kprintf_correct v1 row1.screen (noArgs_fit (.ofString " "))
  obtain ⟨v3, third, printed, -⟩ := kprintf_key (c := 8) screen2 (by decide)
  simp only [List.flatMap_cons, List.flatMap_nil, callsOf, perform, List.foldlM_cons,
    List.singleton_append, List.foldlM_nil, Call.perform, first, second, third, bind, Except.bind,
    pure, Except.pure, Except.ok.injEq] at performed
  subst performed
  have room := printed.room 0 (by simp) (Nat.zero_le _)
  refine ⟨room, ?_⟩
  have member := cellsBefore_last (n := 0) room
  have cells := printed.before 0 (by simp) (Nat.zero_le _)
  rw [List.length_singleton] at cells
  rw [cells] at member
  rw [List.mem_singleton.mp member, charCell_low]
  rfl

theorem erase_breaks (edited : Edited before s) (line : Line.edit before ≠ [])
    (handled : handleKey registers s 8 = some s') : ¬ ShowsLine s' := by
  intro shows_
  have next := edited.step (Or.inl rfl) handled
  obtain ⟨calls, edit, performed⟩ := handleKey_some (by decide) handled
  have some_ : s.1.cli.cliLen ≠ 0 := by
    rw [edited.length]
    exact fun none => line (List.length_eq_zero_iff.mp none)
  rw [editLine, if_pos rfl, if_pos some_] at edit
  obtain ⟨-, same⟩ := Prod.mk.inj (Option.some.inj edit)
  rw [← same] at performed
  obtain ⟨room, glyph⟩ := erase_cell edited.screen performed
  have member := cellsBefore_last (n := 7 + s'.1.cli.cliLen) (v := s'.2) (by
    have := shows_.room
    omega)
  rw [show 7 + s'.1.cli.cliLen + 1 = 8 + s'.1.cli.cliLen by omega, shows_.cells,
    next.typed] at member
  cases List.mem_append.mp member with
  | inl prompt =>
    obtain ⟨c, here, low⟩ := mem_shown prompt
    rw [glyph] at low
    have eight : c = 8 := UInt8.toNat_inj.mp low.symm
    subst eight
    exact absurd here (by decide)
  | inr typed =>
    obtain ⟨c, here, low⟩ := mem_shown typed
    rw [glyph] at low
    have eight : c = 8 := UInt8.toNat_inj.mp low.symm
    subst eight
    exact eight_not_mem_edit _ here

/-! ## Typing -/

/-- The line is shown from column `x` of a row on. -/
structure Showing (x : Nat) (before : List UInt8) (s : Machine × Video) : Prop extends
    Edited before s where
  shows_ : ShowsLine s
  attr : s.2.attr = colorLightGrey.toNat
  column : x + 8 + (Line.edit before).length < 80 →
    s.2.cursorX = x + 8 + (Line.edit before).length

variable {x : Nat}

theorem Printable.editKey (printable : Printable key) (line : List UInt8) :
    Line.editKey line key = line ++ [key] := by
  rw [Line.editKey, if_neg printable.ne_eight, if_neg printable.writes.2]

theorem Printable.editLine (printable : Printable key) {cli : Cli} (room : cli.cliLen < 256) :
    ∃ cli', editLine key cli = some (cli', [.kprintfChar key]) ∧
      cli'.cliLen = cli.cliLen + 1 := by
  have stored : cli.store cli.cliLen key = some { cli with cli := cli.cli.set cli.cliLen key } :=
    dif_pos room
  refine ⟨⟨cli.cliLen + 1, cli.cli.set cli.cliLen key⟩, ?_, rfl⟩
  unfold GekonOS.editLine
  rw [if_neg printable.ne_eight, if_neg printable.writes.1, if_neg printable.writes.2, stored]
  rfl

theorem Showing.type (showing : Showing x before s) (printable : Printable key)
    (fits : x + 8 + (Line.edit before).length + 1 ≤ 80) :
    ∃ s', handleKey registers s key = some s' ∧ Showing x (before ++ [key]) s' := by
  have valid : LineKey key := Or.inr printable
  have length := showing.length
  obtain ⟨cli, edit, longer⟩ := printable.editLine (show s.1.cli.cliLen < 256 by omega)
  obtain ⟨w, printed, row, column⟩ := kprintf_key showing.screen printable.writes
  have performed : perform s.2 ([.kprintfChar key].flatMap (callsOf registers)) = .ok w := by
    simp only [List.flatMap_cons, List.flatMap_nil, callsOf, perform, List.foldlM_cons,
      List.append_nil, List.foldlM_nil, Call.perform, printed, bind, Except.bind, pure,
      Except.pure]
  have handled : handleKey registers s key = some
      ({ s.1 with pc := if key = chr '\n' then .parse else .poll, cli := cli }, w) := by
    rw [handleKey_eq valid.ne_zero, edit]
    simp only [Option.bind_some, performed, Except.toOption]
  have next := showing.toEdited.step valid handled
  have attr := showing.attr
  have cells := showing.shows_.cells
  have room := showing.shows_.room
  have typed : Line.typed cli = Line.typed s.1.cli ++ [key] := by
    rw [next.typed, Line.edit_append, printable.editKey, showing.typed]
  refine ⟨_, handled, next, ⟨?_, ?_⟩, row.attr.trans attr, ?_⟩
  · rw [longer]
    exact row.room (8 + s.1.cli.cliLen) (by simp only [List.length_singleton]; omega) room
  · change cellsBefore w (8 + cli.cliLen) = _ ++ shown (Line.typed cli) colorLightGrey
    have before := row.before (8 + s.1.cli.cliLen)
      (by simp only [List.length_singleton]; omega) room
    rw [List.length_singleton, cells] at before
    rw [longer, ← Nat.add_assoc, before, typed, shown, shown, shown, List.map_append, attr,
      List.append_assoc]
    rfl
  · intro inside
    rw [Line.edit_append, printable.editKey, List.length_append, List.length_singleton] at inside ⊢
    have here := showing.column (by omega)
    change w.cursorX = _
    rw [column (by omega), here]
    omega

theorem Showing.idle (showing : Showing x before s) (empty : Line.edit before = []) :
    ∃ s', handleKey registers s 8 = some s' ∧ Showing x (before ++ [8]) s' := by
  have none : s.1.cli.cliLen = 0 := by
    rw [showing.length, empty]
    rfl
  have edit : editLine 8 s.1.cli = some (s.1.cli, []) := by
    rw [editLine, if_pos rfl, if_neg (fun some_ => some_ none)]
  have handled : handleKey registers s 8 = some ({ s.1 with pc := .poll }, s.2) := by
    rw [handleKey_eq (by decide), edit]
    rfl
  have still : Line.edit (before ++ [8]) = Line.edit before := by
    rw [Line.edit_append, empty]
    rfl
  refine ⟨_, handled, showing.toEdited.step (Or.inl rfl) handled,
    ⟨showing.shows_.room, showing.shows_.cells⟩, showing.attr, ?_⟩
  rw [still]
  exact showing.column

theorem Showing.run {keys : List UInt8} (start : Showing x [] s)
    (valid : ∀ key ∈ keys, LineKey key)
    (fits : ∀ before, before <+: keys → x + 8 + (Line.edit before).length ≤ 80)
    (harmless : ∀ before, before ++ [8] <+: keys → Line.edit before = []) :
    ∃ s', keys.foldlM (handleKey registers) s = some s' ∧ Showing x keys s' := by
  induction keys using List.reverseRecOn with
  | nil => exact ⟨s, rfl, start⟩
  | append_singleton keys key ih =>
    have earlier {l : List UInt8} (first : l <+: keys) : l <+: keys ++ [key] :=
      first.trans (List.prefix_append keys [key])
    obtain ⟨middle, run, showing⟩ := ih
      (fun k member => valid k (List.mem_append_left _ member))
      (fun before first => fits before (earlier first))
      (fun before first => harmless before (earlier first))
    have step : ∃ s', handleKey registers middle key = some s' ∧ Showing x (keys ++ [key]) s' := by
      cases valid key (List.mem_append_right _ List.mem_cons_self) with
      | inl back =>
        subst back
        exact showing.idle (harmless keys (List.prefix_refl _))
      | inr printable =>
        have room := fits (keys ++ [key]) (List.prefix_refl _)
        rw [Line.edit_append, printable.editKey, List.length_append,
          List.length_singleton] at room
        exact showing.type printable (by omega)
    obtain ⟨s', handled, next⟩ := step
    refine ⟨s', ?_, next⟩
    rw [List.foldlM_append, run]
    simpa using handled

/-! ## From the prompt on -/

theorem showCmdline_showing (registers : Nat → BitVec 32) {machine : Machine}
    (at_ : machine.pc = .prompt) (screen : OnScreen v)
    (fits : v.cursorX + 8 ≤ 80) :
    ∃ start, shellStep registers (machine, v) = some start ∧ Showing v.cursorX [] start := by
  let green := GekonOS.setColor colorGreen v
  have greenScreen : OnScreen green := ⟨screen.column, screen.row⟩
  have bytes : (CString.ofString "[root]# ").bytes = bytesOf "[root]# " := by
    decide +kernel
  have writes : ∀ c ∈ (CString.ofString "[root]# ").bytes, Writes c := by decide +kernel
  have plain : chr '%' ∉ (CString.ofString "[root]# ").bytes := by decide
  have length : (CString.ofString "[root]# ").bytes.length = 8 := by decide
  have inside : green.cursorX + (CString.ofString "[root]# ").bytes.length ≤ 80 := by
    rw [length]
    exact fits
  obtain ⟨w, printed, row⟩ : ∃ w, kprintf (.ofString "[root]# ") noArgs green = .ok w ∧ _ :=
    kprintf_row greenScreen inside writes plain
  have performed : perform v ((showCmdline machine.cli).2.flatMap (callsOf registers)) =
      .ok (GekonOS.setColor colorLightGrey w) := by
    simp only [showCmdline, List.flatMap_cons, List.flatMap_nil, callsOf, perform,
      List.foldlM_cons, List.singleton_append, List.foldlM_nil, Call.perform, colorOf, if_true,
      if_neg (show ¬ "LIGHT_GREY" = "GREEN" by decide), bind, Except.bind, pure, Except.pure]
    simp only [green] at printed
    rw [printed]
  have cells := row.before 0
  have room := row.room 0
  rw [List.length_map, length] at cells room
  refine ⟨({ machine with pc := .poll, cli := (showCmdline machine.cli).1 },
    GekonOS.setColor colorLightGrey w), ?_, ⟨Nat.zero_le _, rfl, ?_⟩, ⟨?_, ?_⟩, rfl, ?_⟩
  · unfold shellStep lshLoop
    simp only [at_, consoleCalls, Option.bind_eq_bind, Option.bind_some, performed,
      Except.toOption]
    rfl
  · exact ⟨row.screen.column, row.screen.row⟩
  · exact room (by decide) (Nat.zero_le _)
  · change cellsBefore w 8 = _
    rw [cells (by decide) (Nat.zero_le _), bytes]
    rfl
  · intro short
    have column := kprintf_row_column (v := green) greenScreen.row
      (by rw [length]; exact short) writes plain printed
    rw [length] at column
    exact column

/--
While the prompt and the line fit on the row, the screen shows the line after each key if and only
if no backspace is typed with a line to erase.
-/
theorem showsLine_iff (registers : Nat → BitVec 32) (machine : Machine) (v : Video)
    (at_ : machine.pc = .prompt) (screen : OnScreen v) (keys : List UInt8)
    (valid : ∀ key ∈ keys, LineKey key)
    (fits : ∀ before, before <+: keys → v.cursorX + 8 + (Line.edit before).length ≤ 80) :
    ∃ start, shellStep registers (machine, v) = some start ∧
      ((∀ before, before <+: keys →
          ∃ s', before.foldlM (handleKey registers) start = some s' ∧ ShowsLine s') ↔
        ∀ before, before ++ [8] <+: keys → Line.edit before = []) := by
  obtain ⟨start, prompt, showing⟩ := showCmdline_showing registers at_ screen
    (fits [] List.nil_prefix)
  refine ⟨start, prompt, ?_, ?_⟩
  · intro shows_ before first
    by_contra line
    obtain ⟨s', run, shown'⟩ := shows_ _ first
    rw [List.foldlM_append] at run
    obtain ⟨middle, earlier, last⟩ := Option.bind_eq_some_iff.mp run
    have handled : handleKey registers middle 8 = some s' := by
      simpa using last
    have edited := showing.toEdited.run
      (fun key member => valid key (first.subset (List.mem_append_left _ member))) earlier
    exact erase_breaks edited line handled shown'
  · intro harmless before first
    obtain ⟨s', run, next⟩ := showing.run
      (fun key member => valid key (first.subset member))
      (fun b earlier => fits b (earlier.trans first))
      (fun b earlier => harmless b (earlier.trans first))
    exact ⟨s', run, next.shows_⟩

def bootMachine : Machine :=
  { pc := .prompt, cli := { cliLen := 0, cli := Vector.replicate 256 0 },
    keyboard := Keyboard.initial }

theorem showsLine_iff_letter : ∃ start, shellStep (fun _ => 0) (bootMachine, lastRow) = some start ∧
    ((∀ before, before <+: [8, chr 'a'] →
        ∃ s', before.foldlM (handleKey fun _ => 0) start = some s' ∧ ShowsLine s') ↔
      ∀ before, before ++ [8] <+: [8, chr 'a'] → Line.edit before = []) := by
  have short : ∀ before ∈ [8, chr 'a'].inits, 0 + 8 + (Line.edit before).length ≤ 80 := by
    decide +kernel
  refine showsLine_iff (fun _ => 0) bootMachine lastRow rfl
    ⟨show 0 < 80 by decide, show 24 < 25 by decide⟩ [8, chr 'a'] (by decide +kernel) ?_
  exact fun before first => short before ((List.mem_inits _ _).mpr first)

/-- A letter and a backspace leave the letter and two glyphs of the key on the screen. -/
theorem backspace_not_shown :
    ¬ ∃ start, shellStep (fun _ => 0) (bootMachine, lastRow) = some start ∧
      ∀ before, before <+: [chr 'a', 8] →
        ∃ s', before.foldlM (handleKey fun _ => 0) start = some s' ∧ ShowsLine s' := by
  rintro ⟨start, prompt, shows_⟩
  obtain ⟨start', same, showing⟩ := showCmdline_showing (v := lastRow) (fun _ => 0)
    (show bootMachine.pc = .prompt from rfl) ⟨show 0 < 80 by decide, show 24 < 25 by decide⟩
    (show 0 + 8 ≤ 80 by decide)
  cases prompt.symm.trans same
  obtain ⟨s', run, shown'⟩ := shows_ _ (List.prefix_refl _)
  obtain ⟨middle, first, last⟩ := Option.bind_eq_some_iff.mp run
  have handled : handleKey (fun _ => 0) middle 8 = some s' := by
    simpa using last
  have edited := showing.toEdited.step (Or.inr (by decide)) first
  exact erase_breaks edited (by decide) handled shown'

end GekonOS.Prompt
