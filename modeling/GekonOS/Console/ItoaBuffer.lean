import GekonOS.Console.Digits
import GekonOS.Kernel.CharBuffer

set_option autoImplicit false

namespace GekonOS.ItoaBuffer

open Loop Digits

/-- What has been written so far is `l`, and nothing has been read. -/
structure Holds (str : CharBuffer) (l : List UInt8) : Prop where
  bytes : ∀ k < l.length, str.bytes k = l.getD k 0
  reads : str.reads = []
  writes : ∀ k ∈ str.writes, k < l.length

variable {str : CharBuffer} {l s : List UInt8} {value : Int} {c : UInt8}

theorem Holds.push (holds : Holds str l) (c : UInt8) : Holds (str.store l.length c) (l ++ [c]) := by
  constructor
  case bytes =>
    intro k within
    rw [List.length_append, List.length_singleton] at within
    by_cases last : k = l.length
    · subst last
      simp [CharBuffer.store]
    · have before : k < l.length := by omega
      rw [List.getD_append _ _ _ _ before, ← holds.bytes k before]
      exact Function.update_of_ne last ..
  case reads => exact holds.reads
  case writes =>
    intro k member
    rw [List.length_append, List.length_singleton]
    cases List.mem_append.mp member with
    | inl earlier =>
      have := holds.writes k earlier
      omega
    | inr here =>
      rw [List.mem_singleton] at here
      omega

/-- The buffer version of the state of the digit loop, with room for `n` more characters. -/
structure Follows (n : Nat) (s : Int × List UInt8) (t : ItoaState) : Prop where
  value : t.value = s.1
  i : t.i = s.2.length
  room : s.2.length + n ≤ 40
  holds : Holds t.str s.2

theorem Follows.push {n : Nat} {t : ItoaState} (follows : Follows (n + 1) (value, l) t)
    (c : UInt8) : Follows n (value, l ++ [c]) (t.push c) := by
  have room := follows.room
  have at_ : t.i = l.length := follows.i
  simp only at room
  constructor
  case value => exact follows.value
  case i =>
    simp only [ItoaState.push, at_, List.length_append, List.length_singleton]
    omega
  case room =>
    simp only [List.length_append, List.length_singleton]
    omega
  case holds =>
    rw [ItoaState.push, at_]
    exact follows.holds.push c

theorem Follows.weaken {m n : Nat} {p : Int × List UInt8} {t : ItoaState}
    (follows : Follows n p t) (le : m ≤ n) : Follows m p t :=
  ⟨follows.value, follows.i, by have := follows.room; omega, follows.holds⟩

theorem Follows.withValue {n : Nat} {t : ItoaState} (follows : Follows n (value, l) t)
    (other : Int) : Follows n (other, l) { t with value := other } :=
  ⟨rfl, follows.i, follows.room, follows.holds⟩

theorem itoaDigitLoop_follows {divisor : Nat} {p result : Int × List UInt8} {t : ItoaState}
    (start : Follows 36 p t) (done : itoaDigits divisor p.1 p.2 = .ok result) :
    ∃ n t', itoaDigitLoop divisor t = .ok t' ∧ Follows (n + 3) result t' := by
  refine whileLoop_simulates Fault.outOfFuel _ _ (fun n => Follows (n + 3)) _ _ start done ?_ ?_
  · intro n p t follows
    rw [follows.value]
  · intro n p t next follows _ step
    cases step
    have pushed := follows.push (digitChar (p.1 % divisor).toNat)
    refine ⟨_, rfl, ⟨?_, ?_, pushed.room, ?_⟩⟩
    · simp only [follows.value]
    · rw [follows.value]
      exact pushed.i
    · rw [follows.value]
      exact pushed.holds

/-! ## The reversal -/

/-- The ends of `l` have been swapped up to `j` and down to `i`. -/
structure Reversing (l : List UInt8) (i j : Nat) (str : CharBuffer) : Prop where
  ends : i + j + 1 = l.length
  crossed : j ≤ i + 1
  small : l.length ≤ 255
  bytes : ∀ k < l.length,
    str.bytes k = l.getD (if k < j ∨ i < k then l.length - 1 - k else k) 0
  last : str.bytes l.length = 0
  reads : ∀ k ∈ str.reads, k ≤ l.length
  writes : ∀ k ∈ str.writes, k ≤ l.length

theorem swapChars_bytes (i j k : Nat) (str : CharBuffer) :
    (swapChars i j str).bytes k =
      if k = i then str.bytes j else if k = j then str.bytes i else str.bytes k := by
  simp only [swapChars, CharBuffer.load, CharBuffer.store, Function.update_apply]

theorem Reversing.next {i j : Nat} (reversing : Reversing l i j str) (before : j < i) :
    Reversing l ((i + 255) % 256) ((j + 1) % 256) (swapChars i j str) := by
  obtain ⟨ends, crossed, small, bytes, last, reads, writes⟩ := reversing
  have left : (i + 255) % 256 = i - 1 := by omega
  have right : (j + 1) % 256 = j + 1 := by omega
  rw [left, right]
  constructor
  case ends => omega
  case crossed => omega
  case small => exact small
  case bytes =>
    intro k within
    rw [swapChars_bytes]
    by_cases atI : k = i
    · rw [if_pos atI, bytes j (by omega), if_neg (by omega), if_pos (by omega)]
      congr 1
      omega
    · rw [if_neg atI]
      by_cases atJ : k = j
      · rw [if_pos atJ, bytes i (by omega), if_neg (by omega), if_pos (by omega)]
        congr 1
        omega
      · rw [if_neg atJ, bytes k within]
        simp only [show (k < j + 1 ∨ i - 1 < k) ↔ (k < j ∨ i < k) by omega]
  case last =>
    rw [swapChars_bytes, if_neg (by omega), if_neg (by omega), last]
  case reads =>
    intro k member
    simp only [swapChars, CharBuffer.load, CharBuffer.store, List.append_assoc, List.mem_append,
      List.mem_singleton] at member
    obtain earlier | rfl | rfl := member
    · exact reads k earlier
    · omega
    · omega
  case writes =>
    intro k member
    simp only [swapChars, CharBuffer.load, CharBuffer.store, List.append_assoc, List.mem_append,
      List.mem_singleton] at member
    obtain earlier | rfl | rfl := member
    · exact writes k earlier
    · omega
    · omega

/-- The buffer holds the string `s`, and no byte behind its terminator was touched. -/
structure Written (str : CharBuffer) (s : List UInt8) : Prop where
  bytes : ∀ k < s.length, str.bytes k = s.getD k 0
  last : str.bytes s.length = 0
  reads : ∀ k ∈ str.reads, k ≤ s.length
  writes : ∀ k ∈ str.writes, k ≤ s.length

theorem itoaReverse_written {i : Nat} (start : Reversing l i 0 str) :
    ∃ i' j' str', itoaReverse i str = .ok (i', j', str') ∧ Written str' l.reverse := by
  obtain ⟨⟨i', j', str'⟩, result, final, stop⟩ := whileLoop_total Fault.outOfFuel
    (fun s : Nat × Nat × CharBuffer => .ok (decide (s.2.1 < s.1)))
    (fun s => .ok ((s.1 + 255) % 256, (s.2.1 + 1) % 256, swapChars s.1 s.2.1 s.2.2))
    (fun s => Reversing l s.1 s.2.1 s.2.2) (fun s => s.1) 256 (i, 0, str) start
    (by
      have ends := start.ends
      have small := start.small
      simp only
      omega)
    (fun s _ => ⟨_, rfl⟩)
    (by
      rintro ⟨i, j, str⟩ reversing test
      simp only [Except.ok.injEq, decide_eq_true_eq] at reversing test
      have ends := reversing.ends
      have small := reversing.small
      refine ⟨_, rfl, reversing.next test, ?_⟩
      simp only
      omega)
  simp only [Except.ok.injEq, decide_eq_false_iff_not] at final stop
  obtain ⟨ends, crossed, small, bytes, last, reads, writes⟩ := final
  refine ⟨i', j', str', result, ?_⟩
  constructor
  case bytes =>
    intro k within
    rw [List.length_reverse] at within
    rw [bytes k within, List.getD_reverse k within]
    congr 1
    split <;> omega
  case last =>
    rw [List.length_reverse, last]
  case reads =>
    rw [List.length_reverse]
    exact reads
  case writes =>
    rw [List.length_reverse]
    exact writes

/-! ## The buffer against the list -/

-- the end of `itoa`: the terminator and the reversal
theorem finish_written {n : Nat} {t : ItoaState} (follows : Follows n (value, l) t)
    (some : l ≠ []) :
    ∃ i j str', itoaReverse ((t.i + 255) % 256) (t.str.store t.i 0) = .ok (i, j, str') ∧
      Written str' l.reverse := by
  have at_ : t.i = l.length := follows.i
  have room : l.length + n ≤ 40 := follows.room
  have positive := List.length_pos_of_ne_nil some
  have last : (l.length + 255) % 256 = l.length - 1 := by omega
  rw [at_, last]
  apply itoaReverse_written
  constructor
  case ends => omega
  case crossed => omega
  case small => omega
  case bytes =>
    intro k within
    rw [if_neg (by omega), ← follows.holds.bytes k within]
    exact Function.update_of_ne (Nat.ne_of_lt within) ..
  case last => exact Function.update_self ..
  case reads =>
    intro k member
    have none : t.str.reads = [] := follows.holds.reads
    have absent : k ∈ t.str.reads := member
    rw [none] at absent
    cases absent
  case writes =>
    intro k member
    cases List.mem_append.mp member with
    | inl earlier => exact Nat.le_of_lt (follows.holds.writes k earlier)
    | inr here =>
      rw [List.mem_singleton] at here
      omega

theorem itoaBuffer_invalid {base : Int} (invalid : base ≠ 2 ∧ base ≠ 10 ∧ base ≠ 16) :
    itoaBuffer value base str = .ok (str.store 0 0) := if_pos invalid

theorem fresh_follows (bytes : Nat → UInt8) : Follows 40 (value, [])
    { value := value, i := 0, str := .fresh bytes } := by
  refine ⟨rfl, rfl, Nat.le_refl _, ?_, rfl, ?_⟩
  · intro k within
    cases within
  · intro k member
    cases member

theorem itoaBuffer_refines {base : Nat} (valid : base = 2 ∨ base = 10 ∨ base = 16)
    (bytes : Nat → UInt8) (result : itoa value base = .ok s) :
    ∃ str, itoaBuffer value base (.fresh bytes) = .ok str ∧ Written str s := by
  have accepted : ¬ (base ≠ 2 ∧ base ≠ 10 ∧ base ≠ 16) := by omega
  have acceptedInt : ¬ ((base : Int) ≠ 2 ∧ (base : Int) ≠ 10 ∧ (base : Int) ≠ 16) := by omega
  have ten : (base : Int) = 10 ↔ base = 10 := by omega
  have sixteen : (base : Int) = 16 ↔ base = 16 := by omega
  simp only [itoa, if_neg accepted] at result
  simp only [itoaBuffer, if_neg acceptedInt, ten, sixteen]
  generalize decide (base = 10 ∧ value < 0) = isNegative at result ⊢
  generalize (if isNegative = true then Int.bmod (-value) (2 ^ 32) else value) = negated
    at result ⊢
  generalize (if isNegative = false ∧ base = 16 then 16 else 10) = divisor at result ⊢
  have start : Follows 36 (value, if value = 0 then [chr '0'] else [])
      (if value = 0 then ItoaState.push (chr '0') { value := value, i := 0, str := .fresh bytes }
        else { value := value, i := 0, str := .fresh bytes }) := by
    split
    next => exact ((fresh_follows bytes).push (chr '0')).weaken (by decide)
    next => exact (fresh_follows bytes).weaken (by decide)
  generalize (if value = 0 then [chr '0'] else []) = l at result start
  generalize (if value = 0 then
    ItoaState.push (chr '0') { value := value, i := 0, str := .fresh bytes }
    else { value := value, i := 0, str := .fresh bytes }) = t at start ⊢
  cases digits : itoaDigits divisor negated l with
  | error fault =>
    rw [digits] at result
    cases result
  | ok p =>
    obtain ⟨n, t1, loop, follows⟩ := itoaDigitLoop_follows (start.withValue negated) digits
    rw [digits] at result
    simp only [loop, bind, Except.bind, pure, Except.pure] at result ⊢
    have signed : Follows (n + 2)
        (p.1, if base = 10 ∧ isNegative = true then p.2 ++ [chr '-'] else p.2)
        (if base = 10 ∧ isNegative = true then t1.push (chr '-') else t1) := by
      split
      next => exact follows.push (chr '-')
      next => exact follows.weaken (by omega)
    generalize (if base = 10 ∧ isNegative = true then p.2 ++ [chr '-'] else p.2) = l2
      at result signed
    generalize (if base = 10 ∧ isNegative = true then t1.push (chr '-') else t1) = t2
      at signed ⊢
    have prefixed : Follows n (p.1, if base = 16 then l2 ++ [chr 'x', chr '0'] else l2)
        (if base = 16 then (t2.push (chr 'x')).push (chr '0') else t2) := by
      split
      next =>
        have both := (signed.push (chr 'x')).push (chr '0')
        rwa [List.append_assoc] at both
      next => exact signed.weaken (by omega)
    generalize (if base = 16 then l2 ++ [chr 'x', chr '0'] else l2) = l3 at result prefixed
    generalize (if base = 16 then (t2.push (chr 'x')).push (chr '0') else t2) = t3
      at prefixed ⊢
    by_cases empty : l3 = []
    · rw [if_pos empty] at result
      cases result
    · rw [if_neg empty] at result
      cases result
      obtain ⟨i, j, str, reversed, written⟩ := finish_written prefixed empty
      exact ⟨str, by rw [reversed], written⟩

/-! ## The bounds -/

-- the length of the C string at the start
def IsLength (str : CharBuffer) (length : Nat) : Prop :=
  (∀ k < length, str.bytes k ≠ 0) ∧ str.bytes length = 0

/-- `itoa` returns, touches nothing behind the terminator and keeps to the lengths. -/
def StaysInBuffer (value : BitVec 32) (base : Int) (bytes : Nat → UInt8) : Prop :=
  ∃ str length, itoaBuffer value.toInt base (.fresh bytes) = .ok str ∧ IsLength str length ∧
    (∀ k ∈ str.reads, k ≤ length) ∧ (∀ k ∈ str.writes, k ≤ length) ∧
    (base = 10 ∨ base = 16 → length ≤ 11) ∧ (base = 2 → length ≤ 33)

theorem Written.stays {value : BitVec 32} {base : Int} {bytes : Nat → UInt8}
    (result : itoaBuffer value.toInt base (.fresh bytes) = .ok str) (written : Written str s)
    (text : Text s) : StaysInBuffer value base bytes := by
  have short := text.length
  refine ⟨str, s.length, result, ⟨?_, written.last⟩, written.reads, written.writes,
    fun _ => short, fun _ => by omega⟩
  intro k within
  rw [written.bytes k within, List.getD_eq_getElem _ _ within]
  exact text.nonzero _ (List.getElem_mem within)

-- a first swap at 255 is never undone
theorem itoaReverse_last {i j : Nat} {str' : CharBuffer}
    (result : itoaReverse 255 str = .ok (i, j, str')) : 255 ∈ str'.writes := by
  have first : whileLoop Fault.outOfFuel
      (fun s : Nat × Nat × CharBuffer => .ok (decide (s.2.1 < s.1)))
      (fun s => .ok ((s.1 + 255) % 256, (s.2.1 + 1) % 256, swapChars s.1 s.2.1 s.2.2)) 255
      (254, 1, swapChars 255 0 str) = .ok (i, j, str') := by
    have test : decide (0 < 255) = true := rfl
    rw [itoaReverse, whileLoop] at result
    simp only [test, Nat.reduceAdd, Nat.reduceMod] at result
    exact result
  refine (whileLoop_preserves _ _ _ (fun s => 255 ∈ s.2.2.writes) _ _ _ ?_ first ?_).1
  · simp [swapChars, CharBuffer.load, CharBuffer.store]
  · intro s next member _ step
    cases step
    simp [swapChars, CharBuffer.load, CharBuffer.store, member]

-- without a digit `i - 1` is 255
theorem itoaBuffer_wraps {value : Int} {bytes : Nat → UInt8} (negative : value < 0)
    (result : itoaBuffer value 2 (.fresh bytes) = .ok str) : 255 ∈ str.writes := by
  have nonzero : value ≠ 0 := by omega
  have done : ¬ value > 0 := by omega
  have loop : itoaDigitLoop 10 { value := value, i := 0, str := .fresh bytes } =
      .ok { value := value, i := 0, str := .fresh bytes } := by
    simp [itoaDigitLoop, whileLoop, done]
  have run : itoaBuffer value 2 (.fresh bytes) =
      (itoaReverse 255 ((CharBuffer.fresh bytes).store 0 0)).map fun s => s.2.2 := by
    simp [itoaBuffer, nonzero, loop, bind, Except.bind, pure, Except.pure, Except.map]
  rw [run] at result
  cases reversed : itoaReverse 255 ((CharBuffer.fresh bytes).store 0 0) with
  | error fault =>
    rw [reversed] at result
    cases result
  | ok final =>
    rw [reversed] at result
    cases result
    exact itoaReverse_last reversed

/--
`itoa` stays inside the string it leaves, whatever the base, except for a negative value in base 2:
no digit is written then, and the reversal starts from index 255.
-/
theorem staysInBuffer_iff (value : BitVec 32) (base : Int) (bytes : Nat → UInt8) :
    StaysInBuffer value base bytes ↔ ¬ (base = 2 ∧ value.toInt < 0) := by
  constructor
  · rintro ⟨str, length, result, -, -, writes, -, short⟩ ⟨rfl, negative⟩
    have last := writes 255 (itoaBuffer_wraps negative result)
    have := short rfl
    omega
  · intro fine
    by_cases ten : base = 10
    · subst ten
      obtain ⟨s, result, text⟩ := itoa_decimal value
      obtain ⟨str, run, written⟩ := itoaBuffer_refines (Or.inr (Or.inl rfl)) bytes result
      exact written.stays run text
    by_cases sixteen : base = 16
    · subst sixteen
      obtain ⟨s, result, text⟩ := itoa_hex value
      obtain ⟨str, run, written⟩ := itoaBuffer_refines (Or.inr (Or.inr rfl)) bytes result
      exact written.stays run text
    by_cases two : base = 2
    · subst two
      obtain ⟨s, result, text⟩ := itoa_binary value (by omega)
      obtain ⟨str, run, written⟩ := itoaBuffer_refines (Or.inl rfl) bytes result
      exact written.stays run text
    · refine ⟨_, 0, itoaBuffer_invalid ⟨two, ten, sixteen⟩, ⟨?_, ?_⟩, ?_, ?_,
        fun _ => Nat.zero_le _, fun _ => Nat.zero_le _⟩
      · intro k within
        cases within
      · simp [CharBuffer.store]
      · intro k member
        cases member
      · intro k member
        exact Nat.le_of_eq (List.mem_singleton.mp member)

/-- Minus one in base 2 is swapped with the bytes up to index 255. -/
theorem binary_leaves_buffer : ¬ StaysInBuffer (-1) 2 (fun _ => 0) := by
  rintro ⟨str, length, result, -, -, writes, -, short⟩
  have last := writes 255 (itoaBuffer_wraps (by decide) result)
  have := short rfl
  omega

end GekonOS.ItoaBuffer
