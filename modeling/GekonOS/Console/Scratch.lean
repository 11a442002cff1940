import GekonOS.Console.ItoaBuffer
import GekonOS.Console.Literal
import GekonOS.Kernel.Isr

set_option autoImplicit false

namespace GekonOS.Scratch

open Loop Cursor Digits ItoaBuffer

def bufferSize : Nat := 20

-- the buffer holds whatever the stack has left there
def stackBytes : Nat → UInt8 := fun _ => 0

def itoaStores (value : BitVec 32) (base : Int) : List Nat :=
  match itoaBuffer value.toInt base (.fresh stackBytes) with
  | .ok str => str.writes
  | .error _ => []

-- `buffer[n] = toupper(buffer[n])` behind the first two bytes
def upperStores (value : BitVec 32) : List Nat :=
  match itoa value.toInt 16 with
  | .ok s => (List.range s.length).filter fun n => n > 1
  | .error _ => []

def directiveStores (letter : UInt8) (int : BitVec 32) (string : CString) : List Nat :=
  if letter = chr 'd' then itoaStores int 10
  else if letter = chr 's' then (strcpy (.fresh stackBytes) string).writes
  else if letter = chr 'x' then itoaStores int 16
  else if letter = chr 'X' then itoaStores int 16 ++ upperStores int
  else []

def turnStores (str : CString) (args : Varargs) (p : Printing) : List Nat :=
  match str.charAt p.i, str.charAt (p.i + 1) with
  | .ok c, .ok letter =>
    if c = chr '%' then directiveStores letter (args.int p.taken) (args.string p.taken) else []
  | _, _ => []

-- the test of the loop of `kprintf`
def more (str : CString) (p : Printing) : Except Fault Bool := do
  let c ← str.charAt p.i
  pure (decide (c ≠ 0))

/-- The stores of a call, up to and including those of a directive that overruns the buffer. -/
def kprintfStores (str : CString) (args : Varargs) (v : Video) : List Nat :=
  (visits (more str) (kprintfTurn str args) (str.bytes.length + 1)
    { i := 0, taken := 0, video := v }).flatMap (turnStores str args)

def BufferSafe (str : CString) (args : Varargs) (v : Video) : Prop :=
  ∀ k ∈ kprintfStores str args v, k < bufferSize

theorem strcpyFrom_writes (n : Nat) (dest : CharBuffer) (l : List UInt8) :
    (strcpyFrom n dest l).writes = dest.writes ++ List.range' n (l.length + 1) := by
  induction l generalizing n dest with
  | nil => rfl
  | cons c rest ih =>
    rw [strcpyFrom, ih, List.length_cons, List.range'_succ (n := rest.length + 1)]
    simp [CharBuffer.store]

theorem itoaStores_small {value : BitVec 32} {base : Nat} {s : List UInt8}
    (valid : base = 2 ∨ base = 10 ∨ base = 16) (result : itoa value.toInt base = .ok s)
    (text : Text s) : ∀ k ∈ itoaStores value base, k < bufferSize := by
  obtain ⟨str, run, written⟩ := itoaBuffer_refines valid stackBytes result
  have short := text.length
  intro k member
  rw [itoaStores, run] at member
  have := written.writes k member
  unfold bufferSize
  omega

variable {str : CString} {args : Varargs} {v : Video} {p : Printing} {letter : UInt8}

def Fits (args : Varargs) (n : Nat) : Prop := (args.string n).bytes.length ≤ 19

-- only a string can overrun the buffer
theorem directiveStores_int (int : BitVec 32) (string : CString) (other : letter ≠ chr 's') :
    ∀ k ∈ directiveStores letter int string, k < bufferSize := by
  obtain ⟨decimal, toDecimal, textDecimal⟩ := itoa_decimal int
  obtain ⟨hex, toHex, textHex⟩ := itoa_hex int
  have hexSmall := itoaStores_small (Or.inr (Or.inr rfl)) toHex textHex
  intro k member
  rw [directiveStores, if_neg other] at member
  split at member
  next => exact itoaStores_small (Or.inr (Or.inl rfl)) toDecimal textDecimal k member
  split at member
  next => exact hexSmall k member
  split at member
  next =>
    cases List.mem_append.mp member with
    | inl digits => exact hexSmall k digits
    | inr upper =>
      rw [upperStores, toHex] at upper
      have inside := List.mem_range.mp (List.mem_filter.mp upper).1
      have short := textHex.length
      unfold bufferSize
      omega
  next => cases member

theorem directiveStores_string (int : BitVec 32) (string : CString) :
    (∀ k ∈ directiveStores (chr 's') int string, k < bufferSize) ↔ string.bytes.length ≤ 19 := by
  have other : chr 's' ≠ chr 'd' := by decide
  have writes : directiveStores (chr 's') int string =
      List.range' 0 (string.bytes.length + 1) := by
    rw [directiveStores, if_neg other, if_pos rfl, strcpy, strcpyFrom_writes]
    rfl
  rw [writes]
  unfold bufferSize
  constructor
  · intro small
    have last := small string.bytes.length (List.mem_range'_1.mpr (by omega))
    omega
  · intro short k member
    have := List.mem_range'_1.mp member
    omega

theorem turnStores_plain (within : p.i < str.bytes.length) (plain : str.bytes[p.i] ≠ chr '%') :
    turnStores str args p = [] := by
  unfold turnStores
  rw [charAt_inside within]
  split
  next c letter here _ =>
    cases here
    exact if_neg plain
  next => rfl

theorem turnStores_directive (args : Varargs) (within : p.i < str.bytes.length)
    (percent : str.bytes[p.i] = chr '%') (next : str.charAt (p.i + 1) = .ok letter) :
    turnStores str args p = directiveStores letter (args.int p.taken) (args.string p.taken) := by
  unfold turnStores
  rw [charAt_inside within, next, percent]
  exact if_pos rfl

theorem directiveStores_unknown (int : BitVec 32) (string : CString)
    (unknown : ¬ (letter = chr 's' ∨ letter ∈ intLetters)) :
    directiveStores letter int string = [] := by
  simp only [intLetters, List.mem_cons, List.not_mem_nil, or_false, not_or] at unknown
  obtain ⟨noString, noDecimal, -, noHex, noUpper⟩ := unknown
  simp only [directiveStores, noString, noDecimal, noHex, noUpper, if_false]

theorem directive_long (next : str.charAt (p.i + 1) = .ok (chr 's'))
    (long : ¬ Fits args p.taken) : directive str args p = .error .outside := by
  have refused : toBuffer (args.string p.taken).bytes = .error .outside := by
    unfold Fits at long
    exact if_neg (by omega)
  simp +decide [directive, next, refused, bind, Except.bind]

theorem kprintfTurn_cases (args : Varargs) (within : p.i < str.bytes.length) :
    (∃ p', kprintfTurn str args p = .ok p' ∧ p.i < p'.i ∧ p'.i ≤ str.bytes.length ∧
      (∀ k ∈ turnStores str args p, k < bufferSize) ∧
      ((∀ n ∈ stringArgs (str.bytes.drop p.i) p.taken, Fits args n) ↔
        ∀ n ∈ stringArgs (str.bytes.drop p'.i) p'.taken, Fits args n)) ∨
    ((∃ fault, kprintfTurn str args p = .error fault) ∧
      (∃ k ∈ turnStores str args p, ¬ k < bufferSize) ∧
      ∃ n ∈ stringArgs (str.bytes.drop p.i) p.taken, ¬ Fits args n) := by
  obtain ⟨plain, skipped⟩ | ⟨letter, percent, next, unknown, skipped⟩ |
    ⟨letter, percent, known, here, longer⟩ := format_cases within p.taken
  · refine Or.inl ⟨_, kprintfTurn_literal within plain, Nat.lt_succ_self _, within, ?_, ?_⟩
    · rw [turnStores_plain within plain]
      intro k member
      cases member
    · rw [skipped]
  · have turn : kprintfTurn str args p =
        .ok { p with i := p.i + 1, video := wrapLine p.video } := by
      rw [kprintfTurn_percent args within percent, directive_unknown next unknown]
      rfl
    refine Or.inl ⟨_, turn, Nat.lt_succ_self _, within, ?_, ?_⟩
    · rw [turnStores_directive args within percent next, directiveStores_unknown _ _ unknown]
      intro k member
      cases member
    · rw [skipped]
  · have next : str.charAt (p.i + 1) = .ok letter :=
      charAt_drop (show str.bytes.drop p.i = [chr '%'] ++ letter :: _ from here)
    have stores := turnStores_directive args within percent next
    have turn := kprintfTurn_percent args within percent
    by_cases fits : letter = chr 's' → Fits args p.taken
    · obtain ⟨video, result, -⟩ := directive_taken here known fits
      refine Or.inl ⟨_, by rw [turn, result]; rfl, by simp only; omega, longer, ?_, ?_⟩
      · rw [stores]
        by_cases string : letter = chr 's'
        · subst string
          exact (directiveStores_string _ _).mpr (fits rfl)
        · exact directiveStores_int _ _ string
      · rw [here, stringArgs_taken known]
        by_cases string : letter = chr 's'
        · rw [if_pos string, List.forall_mem_cons]
          exact and_iff_right (fits string)
        · rw [if_neg string]
    · rw [Classical.not_imp] at fits
      obtain ⟨string, long⟩ := fits
      subst string
      refine Or.inr ⟨⟨.outside, ?_⟩, ?_, p.taken, ?_, long⟩
      · rw [turn, directive_long next long]
        rfl
      · have overrun := (directiveStores_string (args.int p.taken) (args.string p.taken)).not.mpr
          long
        rw [stores]
        simpa using overrun
      · rw [here, stringArgs_taken known, if_pos rfl]
        exact List.mem_cons_self

theorem more_inside (inside : p.i ≤ str.bytes.length) :
    more str p = .ok (decide (p.i < str.bytes.length)) := by
  obtain ⟨c, read, nonzero⟩ := charAt_some inside
  simp only [more, read, bind, Except.bind, pure, Except.pure, nonzero]

/-- From any place in the format on: the stores stay inside as long as the strings to come fit. -/
theorem visits_safe (fuel : Nat) (p : Printing) (inside : p.i ≤ str.bytes.length)
    (enough : str.bytes.length - p.i < fuel) :
    (∀ k ∈ (visits (more str) (kprintfTurn str args) fuel p).flatMap (turnStores str args),
      k < bufferSize) ↔
      ∀ n ∈ stringArgs (str.bytes.drop p.i) p.taken, Fits args n := by
  induction fuel generalizing p with
  | zero => omega
  | succ fuel ih =>
    have test := more_inside inside
    by_cases within : p.i < str.bytes.length
    · rw [decide_eq_true within] at test
      obtain ⟨p', turn, later, inside', small, same⟩ | ⟨⟨fault, turn⟩, stored, long⟩ :=
        kprintfTurn_cases args within
      · simp only [visits, test, turn, List.flatMap_cons, List.forall_mem_append]
        rw [ih p' inside' (by omega), same]
        exact and_iff_right small
      · simp only [visits, test, turn, List.flatMap_cons, List.flatMap_nil, List.append_nil]
        obtain ⟨k, member, outside⟩ := stored
        obtain ⟨n, listed, unfit⟩ := long
        exact iff_of_false (fun all => outside (all k member)) (fun all => unfit (all n listed))
    · rw [decide_eq_false within] at test
      simp only [visits, test, List.flatMap_nil, List.drop_of_length_le (Nat.le_of_not_lt within),
        stringArgs, List.not_mem_nil, false_implies, implies_true]

theorem run_returns (str : CString) (args : Varargs) (fuel : Nat) (p : Printing)
    (inside : p.i ≤ str.bytes.length) (enough : str.bytes.length - p.i < fuel) :
    (∃ p', whileLoop Fault.outOfFuel (more str) (kprintfTurn str args) fuel p = .ok p') ↔
      ∀ n ∈ stringArgs (str.bytes.drop p.i) p.taken, Fits args n := by
  induction fuel generalizing p with
  | zero => omega
  | succ fuel ih =>
    have test := more_inside inside
    by_cases within : p.i < str.bytes.length
    · rw [decide_eq_true within] at test
      obtain ⟨p', turn, later, inside', -, same⟩ | ⟨⟨fault, turn⟩, -, n, listed, unfit⟩ :=
        kprintfTurn_cases args within
      · simp only [whileLoop, test, turn]
        rw [ih p' inside' (by omega), same]
      · simp only [whileLoop, test, turn, reduceCtorEq, exists_false, false_iff]
        exact fun all => unfit (all n listed)
    · rw [decide_eq_false within] at test
      simp only [whileLoop, test, List.drop_of_length_le (Nat.le_of_not_lt within), stringArgs,
        List.not_mem_nil, false_implies, implies_true, iff_true]
      exact ⟨p, rfl⟩

theorem bufferSafe_fits (str : CString) (args : Varargs) (v : Video) :
    BufferSafe str args v ↔ StringsFit str args :=
  visits_safe (str.bytes.length + 1) { i := 0, taken := 0, video := v } (Nat.zero_le _)
    (by simp only; omega)

theorem kprintf_returns (str : CString) (args : Varargs) (v : Video) :
    (∃ v', kprintf str args v = .ok v') ↔ StringsFit str args := by
  have run := run_returns str args (str.bytes.length + 1)
    { i := 0, taken := 0, video := v } (Nat.zero_le _) (by simp only; omega)
  refine Iff.trans ?_ run
  have whole : kprintf str args v = (do
      let p ← whileLoop Fault.outOfFuel (more str) (kprintfTurn str args) (str.bytes.length + 1)
        { i := 0, taken := 0, video := v }
      pure (moveCursor (scrollScreen p.video))) := rfl
  rw [whole]
  cases whileLoop Fault.outOfFuel (more str) (kprintfTurn str args) (str.bytes.length + 1)
    { i := 0, taken := 0, video := v } with
  | error fault => simp [bind, Except.bind]
  | ok p => simp [bind, Except.bind, pure, Except.pure]

/--
The stores to the local buffer are in bounds exactly when every string that a directive prints has
at most 19 characters; numbers always fit, and the model of `kprintf` returns in these cases only.
-/
theorem bufferSafe_iff (str : CString) (args : Varargs) (v : Video) :
    (BufferSafe str args v ↔ StringsFit str args) ∧
      ((∃ v', kprintf str args v = .ok v') ↔ BufferSafe str args v) :=
  ⟨bufferSafe_fits str args v, (kprintf_returns str args v).trans (bufferSafe_fits str args v).symm⟩

-- what `isr_handler` passes on through `kpanic`
def exceptionFormat : CString := .ofString "%s Exception"

def exceptionArgs (intNo : Nat) : Varargs :=
  { noArgs with string := fun _ => .ofString (exceptionMessages.getD intNo "") }

theorem exception_safe_iff (v : Video) : ∀ intNo < 32,
    BufferSafe exceptionFormat (exceptionArgs intNo) v ↔ intNo ∉ [2, 4, 9, 13] := by
  intro intNo inTable
  have only : stringArgs exceptionFormat.bytes 0 = [0] := by decide +kernel
  have lengths : ∀ intNo < 32, (CString.ofString (exceptionMessages.getD intNo "")).bytes.length ≤ 19
      ↔ intNo ∉ [2, 4, 9, 13] := by decide +kernel
  rw [bufferSafe_fits, StringsFit, only, List.forall_mem_singleton]
  exact lengths intNo inTable

-- the screen plays no part
def anyVideo : Video := { vid := fun _ => 0, cursorX := 0, cursorY := 0, attr := 7, ports := [] }

/-- The longest exception name takes 28 bytes with its terminator. -/
theorem exception_overruns : ¬ BufferSafe exceptionFormat (exceptionArgs 9) anyVideo :=
  fun safe => absurd ((exception_safe_iff anyVideo 9 (by decide)).mp safe) (by decide)

end GekonOS.Scratch
