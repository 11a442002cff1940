import GekonOS.Console.Digits
import GekonOS.Kernel.Video

set_option autoImplicit false

namespace GekonOS.Cursor

open Digits Loop

/-! ## One call of `kprintf` -/

-- the letters after `%` that take an `int`
def intLetters : List UInt8 := [chr 'd', chr 'c', chr 'x', chr 'X']

-- the numbers of the arguments that the directives `%s` of a format take
def stringArgs : List UInt8 → Nat → List Nat
  | [], _ => []
  | [_], _ => []
  | c :: letter :: rest, taken =>
    if c = chr '%' ∧ letter = chr 's' then taken :: stringArgs rest (taken + 1)
    else if c = chr '%' ∧ letter ∈ intLetters then stringArgs rest (taken + 1)
    else stringArgs (letter :: rest) taken

/-- Every string that the format prints is at most 19 characters long. -/
def StringsFit (str : CString) (args : Varargs) : Prop :=
  ∀ n ∈ stringArgs str.bytes 0, (args.string n).bytes.length ≤ 19

structure OnScreen (v : Video) : Prop where
  column : v.cursorX < 80
  row : v.cursorY < 25

/-- What every turn of the loop of `kprintf` keeps. -/
structure Going (str : CString) (args : Varargs) (v : Video) (p : Printing) : Prop where
  inside : p.i ≤ str.bytes.length
  column : p.video.cursorX < 80
  row : p.video.cursorY < 256
  attr : p.video.attr = v.attr
  ports : p.video.ports = v.ports
  strings : ∀ n ∈ stringArgs (str.bytes.drop p.i) p.taken, (args.string n).bytes.length ≤ 19

variable {str : CString} {args : Varargs} {v : Video} {p : Printing}

theorem charAt_inside {i : Nat} (within : i < str.bytes.length) :
    str.charAt i = .ok str.bytes[i] := dif_pos within

theorem charAt_end {i : Nat} (last : i = str.bytes.length) : str.charAt i = .ok 0 := by
  subst last
  simp [CString.charAt]

theorem charAt_some {i : Nat} (bound : i ≤ str.bytes.length) :
    ∃ c, str.charAt i = .ok c ∧ (c ≠ 0 ↔ i < str.bytes.length) := by
  by_cases within : i < str.bytes.length
  · have nonzero := str.nonzero _ (List.getElem_mem within)
    exact ⟨_, charAt_inside within, fun _ => within, fun _ => nonzero⟩
  · exact ⟨0, charAt_end (by omega), fun nonzero => absurd rfl nonzero,
      fun h => absurd h within⟩

/-- A console that a directive has moved by at most 19 columns. -/
structure Moved (v v' : Video) : Prop where
  column : v'.cursorX ≤ v.cursorX + 19
  row : v'.cursorY = v.cursorY
  attr : v'.attr = v.attr
  ports : v'.ports = v.ports

theorem putBuffer_moved {buffer : List UInt8} (short : buffer.length ≤ 19) (v : Video) :
    Moved v (putBuffer buffer v) :=
  ⟨(Nat.mod_le _ _).trans (Nat.add_le_add_left short _), rfl, rfl, rfl⟩

theorem putChar_moved (c : UInt8) (v : Video) : Moved v (putChar c v) :=
  ⟨(Nat.mod_le _ _).trans (by omega), rfl, rfl, rfl⟩

theorem toBuffer_short {s : List UInt8} (short : s.length ≤ 19) : toBuffer s = .ok s :=
  if_pos (by omega)

theorem charAt_drop {i : Nat} {before rest : List UInt8} {c : UInt8}
    (here : str.bytes.drop i = before ++ c :: rest) : str.charAt (i + before.length) = .ok c := by
  have found : str.bytes[i + before.length]? = some c := by
    rw [← List.getElem?_drop, here]
    simp
  obtain ⟨within, same⟩ := List.getElem?_eq_some_iff.mp found
  rw [charAt_inside within, same]

theorem directive_taken {letter : UInt8} {rest : List UInt8}
    (here : str.bytes.drop p.i = chr '%' :: letter :: rest)
    (known : letter = chr 's' ∨ letter ∈ intLetters)
    (fits : letter = chr 's' → (args.string p.taken).bytes.length ≤ 19) :
    ∃ video, directive str args p =
        .ok { i := p.i + 1, taken := p.taken + 1, video := video } ∧ Moved p.video video := by
  have next : str.charAt (p.i + 1) = .ok letter := by
    have found := charAt_drop (show str.bytes.drop p.i = [chr '%'] ++ letter :: rest from here)
    exact found
  obtain ⟨decimal, toDecimal, shortDecimal, -⟩ := itoa_decimal (args.int p.taken)
  obtain ⟨hex, toHex, shortHex, -⟩ := itoa_hex (args.int p.taken)
  have fitsDecimal := toBuffer_short (s := decimal) (by omega)
  have fitsHex := toBuffer_short (s := hex) (by omega)
  simp only [intLetters, List.mem_cons, List.not_mem_nil, or_false] at known
  unfold directive
  rcases known with string | decimalLetter | charLetter | hexLetter | upperLetter
  · subst string
    refine ⟨_, ?_, putBuffer_moved (fits rfl) _⟩
    simp +decide [next, toBuffer_short (fits rfl), bind, Except.bind, pure, Except.pure]
  · subst decimalLetter
    refine ⟨_, ?_, putBuffer_moved (show decimal.length ≤ 19 by omega) _⟩
    simp +decide [next, toDecimal, fitsDecimal, bind, Except.bind, pure, Except.pure]
  · subst charLetter
    refine ⟨_, ?_, putChar_moved (UInt8.ofNat (args.int p.taken).toNat) _⟩
    simp +decide [next, bind, Except.bind, pure, Except.pure]
  · subst hexLetter
    refine ⟨_, ?_, putBuffer_moved (show hex.length ≤ 19 by omega) _⟩
    simp +decide [next, toHex, fitsHex, bind, Except.bind, pure, Except.pure]
  · subst upperLetter
    have same : (upperDigits hex).length ≤ 19 := by
      simp only [upperDigits, List.length_map, List.length_zipIdx]
      omega
    refine ⟨_, ?_, putBuffer_moved same _⟩
    simp +decide [next, toHex, fitsHex, bind, Except.bind, pure, Except.pure]

theorem directive_unknown {letter : UInt8} (next : str.charAt (p.i + 1) = .ok letter)
    (unknown : ¬ (letter = chr 's' ∨ letter ∈ intLetters)) :
    directive str args p = .ok p := by
  simp only [intLetters, List.mem_cons, List.not_mem_nil, or_false, not_or] at unknown
  simp [directive, next, unknown, bind, Except.bind, pure, Except.pure]

theorem stringArgs_skip {c : UInt8} {rest : List UInt8} {taken : Nat}
    (skip : c = chr '%' → ∀ letter ∈ rest.head?, ¬ (letter = chr 's' ∨ letter ∈ intLetters)) :
    stringArgs (c :: rest) taken = stringArgs rest taken := by
  cases rest with
  | nil => rfl
  | cons letter rest =>
    rw [stringArgs]
    by_cases percent : c = chr '%'
    · have unknown := skip percent letter rfl
      rw [not_or] at unknown
      rw [if_neg (fun both => unknown.1 both.2), if_neg (fun both => unknown.2 both.2)]
    · rw [if_neg (fun both => percent both.1), if_neg (fun both => percent both.1)]

theorem stringArgs_taken {letter : UInt8} {rest : List UInt8} {taken : Nat}
    (known : letter = chr 's' ∨ letter ∈ intLetters) :
    stringArgs (chr '%' :: letter :: rest) taken =
      if letter = chr 's' then taken :: stringArgs rest (taken + 1)
      else stringArgs rest (taken + 1) := by
  rw [stringArgs]
  by_cases string : letter = chr 's'
  · rw [if_pos ⟨rfl, string⟩, if_pos string]
  · rw [if_neg (fun both => string both.2), if_pos ⟨rfl, known.resolve_left string⟩,
      if_neg string]

-- where a format is read: at a character, at an unknown directive, or at a known one
theorem format_cases {i : Nat} (within : i < str.bytes.length) (taken : Nat) :
    (str.bytes[i] ≠ chr '%' ∧
      stringArgs (str.bytes.drop i) taken = stringArgs (str.bytes.drop (i + 1)) taken) ∨
    (∃ letter, str.bytes[i] = chr '%' ∧ str.charAt (i + 1) = .ok letter ∧
      ¬ (letter = chr 's' ∨ letter ∈ intLetters) ∧
      stringArgs (str.bytes.drop i) taken = stringArgs (str.bytes.drop (i + 1)) taken) ∨
    ∃ letter, str.bytes[i] = chr '%' ∧ (letter = chr 's' ∨ letter ∈ intLetters) ∧
      str.bytes.drop i = chr '%' :: letter :: str.bytes.drop (i + 2) ∧
      i + 2 ≤ str.bytes.length := by
  have here : str.bytes.drop i = str.bytes[i] :: str.bytes.drop (i + 1) :=
    List.drop_eq_getElem_cons within
  by_cases percent : str.bytes[i] = chr '%'
  · by_cases more : i + 1 < str.bytes.length
    · have tail : str.bytes.drop (i + 1) = str.bytes[i + 1] :: str.bytes.drop (i + 2) :=
        List.drop_eq_getElem_cons more
      by_cases known : str.bytes[i + 1] = chr 's' ∨ str.bytes[i + 1] ∈ intLetters
      · exact Or.inr (Or.inr ⟨_, percent, known, by rw [here, percent, tail], more⟩)
      · refine Or.inr (Or.inl ⟨_, percent, charAt_inside more, known, ?_⟩)
        rw [here, stringArgs_skip]
        intro _ letter first
        rw [tail, List.head?_cons] at first
        rwa [← Option.some.inj first]
    · refine Or.inr (Or.inl ⟨0, percent, charAt_end (by omega), by decide, ?_⟩)
      rw [here, stringArgs_skip]
      intro _ letter first
      rw [List.drop_of_length_le (by omega)] at first
      cases first
  · refine Or.inl ⟨percent, ?_⟩
    rw [here, stringArgs_skip fun same => absurd same percent]

theorem wrapLine_correct {v : Video} (column : v.cursorX ≤ 98) (row : v.cursorY < 256) :
    (wrapLine v).cursorX < 80 ∧ (wrapLine v).cursorY < 256 ∧ (wrapLine v).attr = v.attr ∧
      (wrapLine v).ports = v.ports := by
  unfold wrapLine
  by_cases last : v.cursorX ≥ 80
  · rw [if_pos last]
    exact ⟨by simp, Nat.mod_lt _ (by decide), rfl, rfl⟩
  · rw [if_neg last]
    exact ⟨by omega, row, rfl, rfl⟩

-- the end of a turn, from where its `switch` has left the console
theorem Going.advance {video : Video} {i taken : Nat} (inside : i + 1 ≤ str.bytes.length)
    (column : video.cursorX ≤ 98) (row : video.cursorY < 256) (attr : video.attr = v.attr)
    (ports : video.ports = v.ports)
    (strings : ∀ n ∈ stringArgs (str.bytes.drop (i + 1)) taken,
      (args.string n).bytes.length ≤ 19) :
    Going str args v { i := i + 1, taken := taken, video := wrapLine video } := by
  obtain ⟨column', row', attr', ports'⟩ := wrapLine_correct column row
  exact ⟨inside, column', row', attr'.trans attr, ports'.trans ports, strings⟩

theorem tab_column {x : Nat} (column : x < 80) :
    ((x + 8) &&& 0xFFFFFFF8) % 256 = 8 * (x / 8) + 8 := by
  have masked : (x + 8) &&& 0xFFFFFFF8 = (x + 8) / 8 * 8 :=
    Word32.and_high_mask (x + 8) 3 29 (by omega)
  rw [masked]
  omega

theorem kprintfTurn_percent (args : Varargs) (within : p.i < str.bytes.length)
    (percent : str.bytes[p.i] = chr '%') :
    kprintfTurn str args p = (directive str args p).map fun p =>
      { p with i := p.i + 1, video := wrapLine p.video } := by
  have newline : ¬ chr '%' = chr '\n' := by decide
  have tab : ¬ chr '%' = chr '\t' := by decide
  unfold kprintfTurn
  rw [charAt_inside within, percent]
  simp only [bind, Except.bind, pure, Except.pure, if_neg newline, if_neg tab, if_true]
  cases directive str args p <;> rfl

theorem kprintfTurn_correct (going : Going str args v p) (within : p.i < str.bytes.length) :
    ∃ p', kprintfTurn str args p = .ok p' ∧ Going str args v p' ∧ p.i < p'.i := by
  have column := going.column
  have row := going.row
  have strings := going.strings
  obtain ⟨plain, skipped⟩ | ⟨letter, percent, next, unknown, skipped⟩ |
    ⟨letter, percent, known, here, longer⟩ := format_cases within p.taken
  · rw [skipped] at strings
    unfold kprintfTurn
    rw [charAt_inside within]
    simp only [bind, Except.bind, pure, Except.pure]
    generalize str.bytes[p.i] = c at plain
    by_cases newline : c = chr '\n'
    · rw [if_pos newline]
      refine ⟨_, rfl, ?_, Nat.lt_succ_self _⟩
      exact Going.advance within (Nat.zero_le _) (Nat.mod_lt _ (by decide)) going.attr
        going.ports strings
    rw [if_neg newline]
    by_cases tab : c = chr '\t'
    · rw [if_pos tab]
      refine ⟨_, rfl, ?_, Nat.lt_succ_self _⟩
      refine Going.advance within ?_ row going.attr going.ports strings
      simp only [tab_column column]
      omega
    rw [if_neg tab, if_neg plain]
    have moved := putChar_moved c p.video
    refine ⟨_, rfl, ?_, Nat.lt_succ_self _⟩
    refine Going.advance within ?_ row going.attr going.ports strings
    have := moved.column
    omega
  · rw [skipped] at strings
    have idle : directive str args p = .ok p := directive_unknown next unknown
    rw [kprintfTurn_percent args within percent, idle]
    refine ⟨_, rfl, ?_, Nat.lt_succ_self _⟩
    exact Going.advance within (by omega) row going.attr going.ports strings
  · rw [here, stringArgs_taken known] at strings
    obtain ⟨video, result, moved⟩ := directive_taken here known (by
      intro string
      apply strings
      rw [if_pos string]
      exact List.mem_cons_self)
    rw [kprintfTurn_percent args within percent, result]
    refine ⟨_, rfl, ?_, by simp only; omega⟩
    refine Going.advance longer ?_ ?_ (moved.attr.trans going.attr)
      (moved.ports.trans going.ports) ?_
    · have := moved.column
      simp only
      omega
    · change video.cursorY < 256
      rw [moved.row]
      exact row
    · intro n member
      apply strings
      split
      next => exact List.mem_cons_of_mem _ member
      next => exact member

theorem scrollScreen_correct (v : Video) (column : v.cursorX < 80) :
    OnScreen (scrollScreen v) ∧ (scrollScreen v).ports = v.ports ∧
      (scrollScreen v).attr = v.attr := by
  unfold scrollScreen
  by_cases below : v.cursorY ≥ 25
  · rw [if_pos below]
    exact ⟨⟨column, show 24 < 25 by decide⟩, rfl, rfl⟩
  · rw [if_neg below]
    exact ⟨⟨column, by omega⟩, rfl, rfl⟩

theorem clearScreen_correct (v : Video) : OnScreen (clearScreen v) :=
  ⟨show 0 < 80 by decide, show 0 < 25 by decide⟩

theorem kprintf_correct (v : Video) (screen : OnScreen v) (fit : StringsFit str args) :
    ∃ v', kprintf str args v = .ok v' ∧ OnScreen v' ∧
      v'.ports = v.ports ++ cursorWrites (v'.cursorY * 80 + v'.cursorX) := by
  have start : Going str args v { i := 0, taken := 0, video := v } :=
    ⟨Nat.zero_le _, screen.column, by have := screen.row; simp only; omega, rfl, rfl, fit⟩
  obtain ⟨p, result, going, -⟩ := whileLoop_total Fault.outOfFuel
    (fun p : Printing => do
      let c ← str.charAt p.i
      pure (decide (c ≠ 0)))
    (kprintfTurn str args) (Going str args v) (fun p => str.bytes.length - p.i)
    (str.bytes.length + 1) { i := 0, taken := 0, video := v } start (by simp only; omega)
    (by
      intro p going
      obtain ⟨c, read, -⟩ := charAt_some going.inside
      exact ⟨_, by rw [read]; rfl⟩)
    (by
      intro p going test
      obtain ⟨c, read, nonzero⟩ := charAt_some going.inside
      simp only [read, bind, Except.bind, pure, Except.pure, Except.ok.injEq,
        decide_eq_true_eq] at test
      have within := nonzero.mp test
      obtain ⟨p', turn, next, later⟩ := kprintfTurn_correct going within
      exact ⟨p', turn, next, by omega⟩)
  obtain ⟨onScreen, ports, -⟩ := scrollScreen_correct p.video going.column
  refine ⟨moveCursor (scrollScreen p.video), ?_, ⟨onScreen.column, onScreen.row⟩, ?_⟩
  · rw [kprintf, result]
    rfl
  · simp only [moveCursor, ports, going.ports]

/-! ## Any sequence of calls -/

inductive Call where
  | clearScreen
  | setColor (color : UInt8)
  | kprintf (str : CString) (args : Varargs)

def Call.perform (v : Video) : Call → Except Fault Video
  | .clearScreen => .ok (GekonOS.clearScreen v)
  | .setColor color => .ok (GekonOS.setColor color v)
  | .kprintf str args => GekonOS.kprintf str args v

def Call.Fits : Call → Prop
  | .kprintf str args => StringsFit str args
  | _ => True

def perform (v : Video) (calls : List Call) : Except Fault Video := calls.foldlM Call.perform v

/-- What was sent to the ports are cursor locations on the screen. -/
def SentOnScreen (v : Video) : Prop :=
  ∃ locations : List Nat, v.ports = locations.flatMap cursorWrites ∧ ∀ l ∈ locations, l < 2000

structure Invariant (v : Video) : Prop where
  screen : OnScreen v
  sent : SentOnScreen v

variable {v' : Video}

theorem SentOnScreen.snoc (sent : SentOnScreen v) (screen : OnScreen v')
    (ports : v'.ports = v.ports ++ cursorWrites (v'.cursorY * 80 + v'.cursorX)) :
    SentOnScreen v' := by
  obtain ⟨locations, same, below⟩ := sent
  have column := screen.column
  have row := screen.row
  refine ⟨locations ++ [v'.cursorY * 80 + v'.cursorX], ?_, ?_⟩
  · rw [ports, same]
    simp
  · intro l member
    cases List.mem_append.mp member with
    | inl earlier => exact below l earlier
    | inr last =>
      have := List.mem_singleton.mp last
      omega

theorem Invariant.perform (inv : Invariant v) (call : Call) (fits : call.Fits) :
    ∃ v', call.perform v = .ok v' ∧ Invariant v' := by
  cases call with
  | clearScreen =>
    exact ⟨_, rfl, clearScreen_correct v, inv.sent.snoc (clearScreen_correct v) rfl⟩
  | setColor color => exact ⟨_, rfl, ⟨inv.screen.column, inv.screen.row⟩, inv.sent⟩
  | kprintf str args =>
    obtain ⟨v', result, screen, ports⟩ := kprintf_correct v inv.screen fits
    exact ⟨v', result, screen, inv.sent.snoc screen ports⟩

theorem Invariant.run (calls : List Call) {v : Video} (inv : Invariant v)
    (fit : ∀ call ∈ calls, call.Fits) :
    ∃ v', Cursor.perform v calls = .ok v' ∧ Invariant v' := by
  induction calls generalizing v with
  | nil => exact ⟨v, rfl, inv⟩
  | cons call calls ih =>
    obtain ⟨v', first, next⟩ := inv.perform call (fit call List.mem_cons_self)
    obtain ⟨final, rest, last⟩ := ih next fun c member => fit c (List.mem_cons_of_mem _ member)
    refine ⟨final, ?_, last⟩
    simp only [Cursor.perform, List.foldlM_cons, first, bind, Except.bind]
    exact rest

/-! ## From `Video_Init` on -/

theorem noArgs_fit (str : CString) : StringsFit str noArgs := fun _ _ => Nat.zero_le _

theorem videoInit_correct (v : Video) (date time : CString)
    (dateFits : date.bytes.length = 11) (timeFits : time.bytes.length = 8) :
    ∃ v', videoInit date time { v with ports := [] } = .ok v' ∧ Invariant v' := by
  have cleared : Invariant (GekonOS.clearScreen { v with ports := [], attr := 7 }) := by
    have screen := clearScreen_correct { v with ports := [], attr := 7 }
    have nothing : SentOnScreen { v with ports := [], attr := 7 } := ⟨[], rfl, by simp⟩
    exact ⟨screen, nothing.snoc screen rfl⟩
  let build : Varargs := { noArgs with string := fun n => if n = 0 then date else time }
  have buildFits (str : CString) : StringsFit str build := by
    intro n _
    simp only [build]
    split <;> omega
  obtain ⟨v1, first, inv1⟩ := cleared.perform
    (.kprintf (CString.ofString "Starting GekonOS...\n") noArgs) (noArgs_fit _)
  obtain ⟨v2, second, inv2⟩ := inv1.perform
    (.kprintf (CString.ofString "(build: %s %s)\n\n") build) (buildFits _)
  obtain ⟨v3, third, inv3⟩ := inv2.perform
    (.kprintf (CString.ofString "Initializing Video Text Mode...\n") noArgs) (noArgs_fit _)
  simp only [Call.perform] at first second third
  refine ⟨v3, ?_, inv3⟩
  simp only [videoInit, first, second, third, bind, Except.bind, build]

/--
After `Video_Init`, any sequence of calls returns: no call reads behind the terminator of its
format or writes outside its buffer. The cursor is then on the screen, and the board has been sent
nothing but locations below 2000.
-/
theorem cursor_on_screen (v started : Video) (date time : CString)
    (dateFits : date.bytes.length = 11) (timeFits : time.bytes.length = 8)
    (init : videoInit date time { v with ports := [] } = .ok started) (calls : List Call)
    (fit : ∀ call ∈ calls, call.Fits) :
    ∃ v', perform started calls = .ok v' ∧ v'.cursorX < 80 ∧ v'.cursorY < 25 ∧
      SentOnScreen v' := by
  obtain ⟨v1, result, inv⟩ := videoInit_correct v date time dateFits timeFits
  cases init.symm.trans result
  obtain ⟨v', run, final⟩ := inv.run calls fit
  exact ⟨v', run, final.screen.column, final.screen.row, final.sent⟩

def darkVideo : Video :=
  { vid := fun _ => 0, cursorX := 0, cursorY := 0, attr := 0, ports := [] }

def greeting : Call :=
  .kprintf (CString.ofString "\t%s %d %q 100%")
    { int := fun _ => -5, string := fun _ => CString.ofString "hello" }

theorem cursor_on_screen_greeting : ∃ started,
    videoInit (CString.ofString "Jan 01 2020") (CString.ofString "12:00:00")
        { darkVideo with ports := [] } = .ok started ∧
      ∃ v', perform started [.setColor 4, greeting] = .ok v' ∧ v'.cursorX < 80 ∧
        v'.cursorY < 25 ∧ SentOnScreen v' := by
  have date : (CString.ofString "Jan 01 2020").bytes.length = 11 := by decide
  have time : (CString.ofString "12:00:00").bytes.length = 8 := by decide
  have short : (CString.ofString "hello").bytes.length ≤ 19 := by decide
  obtain ⟨started, init, -⟩ := videoInit_correct darkVideo _ _ date time
  refine ⟨started, init, cursor_on_screen darkVideo started _ _ date time init _ ?_⟩
  intro call member
  cases member with
  | head => exact trivial
  | tail _ last =>
    obtain rfl := List.mem_singleton.mp last
    exact fun _ _ => short

end GekonOS.Cursor
