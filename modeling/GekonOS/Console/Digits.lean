import GekonOS.Kernel.Stdlib
import GekonOS.Shared.Word32

set_option autoImplicit false

namespace GekonOS.Digits

open Loop

/-! ## The digits that `itoa` writes -/

-- the digits of `n` in base `b`, the first one in front
def numeral (b n : Nat) : List UInt8 := ((Nat.digits b n).map digitChar).reverse

theorem digitLoop_correct {b : Nat} (base : 2 ≤ b) (fuel n : Nat) (str : List UInt8)
    (bound : n < b ^ fuel) :
    whileLoop Fault.outOfFuel (fun s : Int × List UInt8 => .ok (decide (s.1 > 0)))
      (fun s => .ok (s.1 / b, s.2 ++ [digitChar (s.1 % b).toNat])) (fuel + 1) ((n : Int), str) =
      .ok (0, str ++ (Nat.digits b n).map digitChar) := by
  induction fuel generalizing n str with
  | zero =>
    rw [Nat.pow_zero] at bound
    obtain rfl : n = 0 := by omega
    simp [whileLoop]
  | succ fuel ih =>
    by_cases zero : n = 0
    · subst zero
      simp [whileLoop]
    · have smaller : n / b < b ^ fuel := by
        apply Nat.div_lt_of_lt_mul
        rw [← Nat.pow_succ']
        exact bound
      have positive : decide ((n : Int) > 0) = true := decide_eq_true (by omega)
      have digit : ((n : Int) % b).toNat = n % b := by omega
      have next := ih (n / b) (str ++ [digitChar (n % b)]) smaller
      rw [whileLoop]
      simp only [positive, digit]
      rw [Nat.digits_def' base (Nat.pos_of_ne_zero zero), List.map_cons,
        List.append_cons str (digitChar (n % b)) ((Nat.digits b (n / b)).map digitChar)]
      exact_mod_cast next

theorem itoaDigits_numeral {b n : Nat} (base : 10 ≤ b) (small : n ≤ 2 ^ 31) :
    itoaDigits b n [] = .ok (0, (Nat.digits b n).map digitChar) := by
  have bound : n < b ^ 32 :=
    Nat.lt_of_lt_of_le (show n < 10 ^ 32 by omega) (Nat.pow_le_pow_left base 32)
  exact digitLoop_correct (by omega) 32 n [] bound

theorem itoaDigits_done {b : Nat} {value : Int} (done : ¬ value > 0) (str : List UInt8) :
    itoaDigits b value str = .ok (value, str) := by
  simp [itoaDigits, whileLoop, done]

variable {n : Nat}

theorem numeral_ne_nil {b : Nat} (positive : 0 < n) : numeral b n ≠ [] := by
  intro empty
  have digits : Nat.digits b n = [] := by simpa [numeral] using empty
  rw [Nat.digits_eq_nil_iff_eq_zero] at digits
  omega

-- base 2 passes the check and is then treated as base 10
theorem itoa_positive {base : Nat} (decimal : base = 10 ∨ base = 2) (positive : 0 < n)
    (small : n ≤ 2 ^ 31) : itoa n base = .ok (numeral 10 n) := by
  have digits := itoaDigits_numeral (Nat.le_refl 10) small
  have some : (Nat.digits 10 n).map digitChar ≠ [] := by
    simpa [numeral] using numeral_ne_nil (b := 10) positive
  have nonzero : n ≠ 0 := by omega
  have notNegative : ¬ (n : Int) < 0 := by omega
  cases decimal with
  | inl ten =>
    subst ten
    simp [itoa, nonzero, notNegative, digits, some, bind, Except.bind, pure, Except.pure, numeral]
  | inr two =>
    subst two
    simp [itoa, nonzero, digits, some, bind, Except.bind, pure, Except.pure, numeral]

theorem itoa_negative (positive : 0 < n) (small : n < 2 ^ 31) :
    itoa (-(n : Int)) 10 = .ok (chr '-' :: numeral 10 n) := by
  have negated : Int.bmod (- -(n : Int)) 4294967296 = n := by
    rw [Int.neg_neg]
    exact Int.bmod_eq_of_le (by omega) (by omega)
  have digits := itoaDigits_numeral (n := n) (Nat.le_refl 10) (by omega)
  have nonzero : -(n : Int) ≠ 0 := by omega
  have negative : -(n : Int) < 0 := by omega
  simp only [itoa, nonzero, negative, negated, if_false, if_true, and_self, decide_true,
    Nat.reducePow]
  simp [digits, bind, Except.bind, pure, Except.pure, numeral]

theorem itoa_least : itoa (-2147483648) 10 = .ok [chr '-'] := by decide

theorem itoa_hex_positive (positive : 0 < n) (small : n ≤ 2 ^ 31) :
    itoa n 16 = .ok (chr '0' :: chr 'x' :: numeral 16 n) := by
  have digits := itoaDigits_numeral (b := 16) (by decide) small
  have nonzero : n ≠ 0 := by omega
  simp [itoa, nonzero, digits, bind, Except.bind, pure, Except.pure, numeral]

theorem itoa_hex_negative {value : Int} (negative : value < 0) :
    itoa value 16 = .ok [chr '0', chr 'x'] := by
  have nonzero : value ≠ 0 := by omega
  have digits := itoaDigits_done (b := 16) (Int.not_lt_of_ge (Int.le_of_lt negative)) []
  simp [itoa, nonzero, digits, bind, Except.bind, pure, Except.pure]

theorem itoa_binary_negative {value : Int} (negative : value < 0) :
    itoa value 2 = .error .outside := by
  have nonzero : value ≠ 0 := by omega
  have digits := itoaDigits_done (b := 10) (Int.not_lt_of_ge (Int.le_of_lt negative)) []
  simp [itoa, nonzero, digits, bind, Except.bind]

/-! ## What `itoa` writes, by the value -/

variable (value : BitVec 32)

theorem value_cases : value.toInt = 0 ∨ (∃ n : Nat, 0 < n ∧ n < 2 ^ 31 ∧ value.toInt = n) ∨
    (∃ n : Nat, 0 < n ∧ n < 2 ^ 31 ∧ value.toInt = -(n : Int)) ∨ value.toInt = -2147483648 := by
  have upper := value.toInt_lt
  have lower := value.le_toInt
  by_cases negative : value.toInt < 0
  · obtain ⟨n, same⟩ := Int.eq_ofNat_of_zero_le (show 0 ≤ -value.toInt by omega)
    by_cases least : value.toInt = -2147483648
    · exact Or.inr (Or.inr (Or.inr least))
    · exact Or.inr (Or.inr (Or.inl ⟨n, by omega, by omega, by omega⟩))
  · obtain ⟨n, same⟩ := Int.eq_ofNat_of_zero_le (show 0 ≤ value.toInt by omega)
    by_cases zero : value.toInt = 0
    · exact Or.inl zero
    · exact Or.inr (Or.inl ⟨n, by omega, by omega, same⟩)

theorem itoa_decimal_cases :
    value.toInt = 0 ∧ itoa value.toInt 10 = .ok [chr '0'] ∨
    (∃ n : Nat, 0 < n ∧ n < 2 ^ 31 ∧ value.toInt = n ∧
      itoa value.toInt 10 = .ok (numeral 10 n)) ∨
    (∃ n : Nat, 0 < n ∧ n < 2 ^ 31 ∧ value.toInt = -(n : Int) ∧
      itoa value.toInt 10 = .ok (chr '-' :: numeral 10 n)) ∨
    value.toInt = -2147483648 ∧ itoa value.toInt 10 = .ok [chr '-'] := by
  obtain zero | ⟨n, positive, small, same⟩ | ⟨n, positive, small, same⟩ | least :=
    value_cases value
  · exact Or.inl ⟨zero, by rw [zero]; decide⟩
  · refine Or.inr (Or.inl ⟨n, positive, small, same, ?_⟩)
    rw [same]
    exact itoa_positive (Or.inl rfl) positive (by omega)
  · refine Or.inr (Or.inr (Or.inl ⟨n, positive, small, same, ?_⟩))
    rw [same]
    exact itoa_negative positive small
  · exact Or.inr (Or.inr (Or.inr ⟨least, by rw [least]; exact itoa_least⟩))

theorem itoa_hex_cases :
    value.toInt = 0 ∧ itoa value.toInt 16 = .ok [chr '0', chr 'x', chr '0'] ∨
    (∃ n : Nat, 0 < n ∧ n < 2 ^ 31 ∧ value.toInt = n ∧
      itoa value.toInt 16 = .ok (chr '0' :: chr 'x' :: numeral 16 n)) ∨
    value.toInt < 0 ∧ itoa value.toInt 16 = .ok [chr '0', chr 'x'] := by
  obtain zero | ⟨n, positive, small, same⟩ | ⟨n, positive, small, same⟩ | least :=
    value_cases value
  · exact Or.inl ⟨zero, by rw [zero]; decide⟩
  · refine Or.inr (Or.inl ⟨n, positive, small, same, ?_⟩)
    rw [same]
    exact itoa_hex_positive positive (by omega)
  · exact Or.inr (Or.inr ⟨by omega, itoa_hex_negative (by omega)⟩)
  · exact Or.inr (Or.inr ⟨by omega, itoa_hex_negative (by omega)⟩)

theorem itoa_binary_cases :
    value.toInt = 0 ∧ itoa value.toInt 2 = .ok [chr '0'] ∨
    (∃ n : Nat, 0 < n ∧ n < 2 ^ 31 ∧ value.toInt = n ∧
      itoa value.toInt 2 = .ok (numeral 10 n)) ∨
    value.toInt < 0 ∧ itoa value.toInt 2 = .error .outside := by
  obtain zero | ⟨n, positive, small, same⟩ | ⟨n, positive, small, same⟩ | least :=
    value_cases value
  · exact Or.inl ⟨zero, by rw [zero]; decide⟩
  · refine Or.inr (Or.inl ⟨n, positive, small, same, ?_⟩)
    rw [same]
    exact itoa_positive (Or.inr rfl) positive (by omega)
  · exact Or.inr (Or.inr ⟨by omega, itoa_binary_negative (by omega)⟩)
  · exact Or.inr (Or.inr ⟨by omega, itoa_binary_negative (by omega)⟩)

theorem numeral_length {b : Nat} (base : 10 ≤ b) (small : n < 2 ^ 31) :
    (numeral b n).length ≤ 10 := by
  have bound : n < b ^ 10 :=
    Nat.lt_of_lt_of_le (show n < 10 ^ 10 by omega) (Nat.pow_le_pow_left base 10)
  rw [numeral, List.length_reverse, List.length_map]
  exact (Nat.digits_length_le_iff (by omega) n).mpr bound

theorem numeral_hex_length (small : n < 2 ^ 31) : (numeral 16 n).length ≤ 8 := by
  rw [numeral, List.length_reverse, List.length_map]
  exact (Nat.digits_length_le_iff (by decide) n).mpr (by omega)

-- the characters of all numerals, signs and `0x`
def Plain (c : UInt8) : Prop := chr '-' ≤ c ∧ c ≤ chr 'x'

instance (c : UInt8) : Decidable (Plain c) := inferInstanceAs (Decidable (_ ∧ _))

theorem numeral_plain {b : Nat} (base : 2 ≤ b) (upper : b ≤ 16) : ∀ c ∈ numeral b n, Plain c := by
  intro c member
  simp only [numeral, List.mem_reverse, List.mem_map] at member
  obtain ⟨d, digit, rfl⟩ := member
  have plain : ∀ d < 16, Plain (digitChar d) := by decide
  exact plain d (Nat.lt_of_lt_of_le (Nat.digits_lt_base (by omega) digit) upper)

-- a string that `itoa` writes
structure Text (s : List UInt8) : Prop where
  length : s.length ≤ 11
  plain : ∀ c ∈ s, Plain c

theorem Plain.ne_zero {c : UInt8} (plain : Plain c) : c ≠ 0 := by
  rintro rfl
  exact absurd plain (by decide)

theorem Text.nonzero {s : List UInt8} (text : Text s) : ∀ c ∈ s, c ≠ 0 :=
  fun c member => (text.plain c member).ne_zero

theorem itoa_decimal : ∃ s, itoa value.toInt 10 = .ok s ∧ Text s := by
  obtain ⟨-, result⟩ | ⟨n, -, small, -, result⟩ | ⟨n, -, small, -, result⟩ | ⟨-, result⟩ :=
    itoa_decimal_cases value
  · exact ⟨_, result, by decide, by decide +kernel⟩
  · have short := numeral_length (Nat.le_refl 10) small
    exact ⟨_, result, by omega, numeral_plain (by decide) (by decide)⟩
  · have short := numeral_length (Nat.le_refl 10) small
    refine ⟨_, result, by rw [List.length_cons]; omega, ?_⟩
    exact List.forall_mem_cons.mpr ⟨by decide, numeral_plain (by decide) (by decide)⟩
  · exact ⟨_, result, by decide, by decide +kernel⟩

theorem itoa_hex : ∃ s, itoa value.toInt 16 = .ok s ∧ Text s := by
  obtain ⟨-, result⟩ | ⟨n, -, small, -, result⟩ | ⟨-, result⟩ := itoa_hex_cases value
  · exact ⟨_, result, by decide, by decide +kernel⟩
  · have short := numeral_hex_length small
    refine ⟨_, result, by simp only [List.length_cons]; omega, ?_⟩
    exact List.forall_mem_cons.mpr ⟨by decide, List.forall_mem_cons.mpr
      ⟨by decide, numeral_plain (by decide) (by decide)⟩⟩
  · exact ⟨_, result, by decide, by decide +kernel⟩

theorem itoa_binary (nonneg : 0 ≤ value.toInt) : ∃ s, itoa value.toInt 2 = .ok s ∧ Text s := by
  obtain ⟨-, result⟩ | ⟨n, -, small, -, result⟩ | ⟨negative, -⟩ := itoa_binary_cases value
  · exact ⟨_, result, by decide, by decide +kernel⟩
  · have short := numeral_length (Nat.le_refl 10) small
    exact ⟨_, result, by omega, numeral_plain (by decide) (by decide)⟩
  · omega

/-! ## A reader of numerals -/

def digitValue (c : UInt8) : Option Nat :=
  if chr '0' ≤ c ∧ c ≤ chr '9' then some (c - chr '0').toNat
  else if chr 'a' ≤ c ∧ c ≤ chr 'f' then some ((c - chr 'a').toNat + 10)
  else none

def readDigit (base n : Nat) (c : UInt8) : Option Nat := do
  let d ← digitValue c
  if d < base then some (n * base + d) else none

/-- The number that some digits denote; a leading zero is refused. -/
def readNumeral (base : Nat) (s : List UInt8) : Option Nat :=
  if s = [] ∨ 1 < s.length ∧ s.head? = some (chr '0') then none
  else s.foldlM (readDigit base) 0

-- a sign in base 10, `0x` in base 16
def readBack (base : Nat) (s : List UInt8) : Option Int :=
  if base = 16 then
    if s.take 2 = [chr '0', chr 'x'] then (readNumeral 16 (s.drop 2)).map Int.ofNat else none
  else if base = 10 ∧ s.head? = some (chr '-') then
    (readNumeral 10 s.tail).map fun n => -(n : Int)
  else (readNumeral base s).map Int.ofNat

-- signed in base 10, the bit pattern in the others
def denoted (value : BitVec 32) (base : Nat) : Int :=
  if base = 10 then value.toInt else value.toNat

/-- `itoa` writes a numeral that denotes the value. -/
def RoundTrips (value : BitVec 32) (base : Nat) : Prop :=
  ∃ s, itoa value.toInt base = .ok s ∧ readBack base s = some (denoted value base)

theorem digitValue_digitChar : ∀ d < 16, digitValue (digitChar d) = some d := by decide

theorem digitChar_eq_zero : ∀ d < 16, digitChar d = chr '0' → d = 0 := by decide

-- the fold over the digits, the first digit being the last of `l`
theorem foldlM_digits (base : Nat) {l : List Nat} (small : ∀ d ∈ l, d < 16) :
    ((l.map digitChar).reverse).foldlM (readDigit base) 0 =
      if ∀ d ∈ l, d < base then some (Nat.ofDigits base l) else none := by
  induction l with
  | nil => simp
  | cons d rest ih =>
    have here : digitValue (digitChar d) = some d :=
      digitValue_digitChar d (small d List.mem_cons_self)
    rw [List.map_cons, List.reverse_cons, List.foldlM_append,
      ih fun e member => small e (List.mem_cons_of_mem _ member)]
    by_cases fits : ∀ e ∈ rest, e < base
    · have step : readDigit base (Nat.ofDigits base rest) (digitChar d) =
          if d < base then some (Nat.ofDigits base (d :: rest)) else none := by
        simp [readDigit, here, Nat.ofDigits_cons, Nat.mul_comm base, Nat.add_comm d]
      rw [if_pos fits]
      simp only [Option.bind_eq_bind, Option.bind_some, List.foldlM_cons, List.foldlM_nil, step]
      by_cases first : d < base
      · have all : ∀ e ∈ d :: rest, e < base := List.forall_mem_cons.mpr ⟨first, fits⟩
        simp only [if_pos first, if_pos all, Option.bind_some, pure]
      · have unfit : ¬ ∀ e ∈ d :: rest, e < base := fun all => first (all d List.mem_cons_self)
        simp only [if_neg first, if_neg unfit, Option.bind_none]
    · have unfit : ¬ ∀ e ∈ d :: rest, e < base :=
        fun all => fits fun e member => all e (List.mem_cons_of_mem _ member)
      rw [if_neg fits, if_neg unfit]
      rfl

theorem numeral_digits {b d : Nat} (base : 2 ≤ b) (upper : b ≤ 16) (member : d ∈ Nat.digits b n) :
    d < 16 :=
  Nat.lt_of_lt_of_le (Nat.digits_lt_base (by omega) member) upper

theorem numeral_head {b : Nat} (base : 2 ≤ b) (upper : b ≤ 16) (positive : 0 < n) :
    (numeral b n).head? ≠ some (chr '0') := by
  have nonzero : n ≠ 0 := by omega
  have some_ : Nat.digits b n ≠ [] := Nat.digits_ne_nil_iff_ne_zero.mpr nonzero
  have last := Nat.getLast_digit_ne_zero b nonzero
  rw [numeral, List.head?_reverse, List.getLast?_map, List.getLast?_eq_some_getLast some_,
    Option.map_some]
  intro zero
  exact last (digitChar_eq_zero _ (numeral_digits base upper (List.getLast_mem some_))
    (Option.some.inj zero))

theorem readNumeral_numeral {b base : Nat} (valid : 2 ≤ b) (upper : b ≤ 16) (positive : 0 < n) :
    readNumeral base (numeral b n) =
      if ∀ d ∈ Nat.digits b n, d < base then some (Nat.ofDigits base (Nat.digits b n)) else none := by
  have head := numeral_head valid upper positive
  rw [readNumeral, if_neg (fun refused => refused.elim (numeral_ne_nil positive)
    (fun zero => head zero.2))]
  exact foldlM_digits base fun d member => numeral_digits valid upper member

theorem readNumeral_own {b : Nat} (valid : 2 ≤ b) (upper : b ≤ 16) (positive : 0 < n) :
    readNumeral b (numeral b n) = some n := by
  rw [readNumeral_numeral valid upper positive, Nat.ofDigits_digits,
    if_pos (fun d member => Nat.digits_lt_base (by omega) member)]

theorem ofDigits_two {n : Nat} (positive : 0 < n) (bits : ∀ d ∈ Nat.digits 10 n, d < 2)
    (same : Nat.ofDigits 2 (Nat.digits 10 n) = n) : n = 1 := by
  have own := Nat.ofDigits_digits 10 n
  rw [Nat.digits_def' (by decide) positive] at bits same own
  rw [Nat.ofDigits_cons] at same own
  have first := bits (n % 10) List.mem_cons_self
  have grows := Nat.ofDigits_monotone (Nat.digits 10 (n / 10)) (show 2 ≤ 10 by decide)
  omega

/-! ## The round trip -/

variable {value}

theorem toNat_of_nonneg (nonneg : 0 ≤ value.toInt) : (value.toNat : Int) = value.toInt := by
  have small := value.isLt
  rw [BitVec.toInt_eq_toNat_cond] at nonneg ⊢
  split at nonneg
  next low => rw [if_pos low]
  next high => omega

theorem numeral_sign {b : Nat} (base : 2 ≤ b) (upper : b ≤ 16) :
    (numeral b n).head? ≠ some (chr '-') := by
  intro sign
  have member := List.mem_of_mem_head? sign
  simp only [numeral, List.mem_reverse, List.mem_map] at member
  obtain ⟨d, digit, same⟩ := member
  have none : ∀ d < 16, digitChar d ≠ chr '-' := by decide
  exact none d (numeral_digits base upper digit) same

theorem roundTrips_decimal : RoundTrips value 10 ↔ value.toInt ≠ -2147483648 := by
  have goal : denoted value 10 = value.toInt := if_pos rfl
  unfold RoundTrips
  rw [goal]
  obtain ⟨zero, result⟩ | ⟨n, positive, -, same, result⟩ | ⟨n, positive, small, same, result⟩ |
    ⟨least, result⟩ := itoa_decimal_cases value
  · refine iff_of_true ⟨_, result, ?_⟩ (by omega)
    rw [zero]
    decide
  · refine iff_of_true ⟨_, result, ?_⟩ (by omega)
    have sign := numeral_sign (n := n) (show 2 ≤ 10 by decide) (by decide)
    rw [same]
    simp [readBack, sign, readNumeral_own (show 2 ≤ 10 by decide) (by decide) positive]
  · refine iff_of_true ⟨_, result, ?_⟩ (by omega)
    rw [same]
    simp [readBack, readNumeral_own (show 2 ≤ 10 by decide) (by decide) positive]
  · refine iff_of_false ?_ (fun other => other least)
    rintro ⟨s, written, read⟩
    rw [result] at written
    cases written
    simp [readBack, readNumeral] at read

theorem roundTrips_hex : RoundTrips value 16 ↔ 0 ≤ value.toInt := by
  obtain ⟨zero, result⟩ | ⟨n, positive, -, same, result⟩ | ⟨negative, result⟩ :=
    itoa_hex_cases value
  · refine iff_of_true ⟨_, result, ?_⟩ (by omega)
    rw [denoted, if_neg (by decide), toNat_of_nonneg (by omega), zero]
    decide
  · refine iff_of_true ⟨_, result, ?_⟩ (by omega)
    rw [denoted, if_neg (by decide), toNat_of_nonneg (by omega), same]
    simp [readBack, readNumeral_own (show 2 ≤ 16 by decide) (by decide) positive]
  · refine iff_of_false ?_ (by omega)
    rintro ⟨s, written, read⟩
    rw [result] at written
    cases written
    simp [readBack, readNumeral] at read

theorem roundTrips_binary : RoundTrips value 2 ↔ value.toInt = 0 ∨ value.toInt = 1 := by
  obtain ⟨zero, result⟩ | ⟨n, positive, -, same, result⟩ | ⟨negative, result⟩ :=
    itoa_binary_cases value
  · refine iff_of_true ⟨_, result, ?_⟩ (Or.inl zero)
    rw [denoted, if_neg (by decide), toNat_of_nonneg (by omega), zero]
    decide
  · have goal : denoted value 2 = n := by
      rw [denoted, if_neg (by decide), toNat_of_nonneg (by omega), same]
    have reads : readBack 2 (numeral 10 n) = some (n : Int) ↔ n = 1 := by
      simp only [readBack, readNumeral_numeral (show 2 ≤ 10 by decide) (by decide) positive]
      constructor
      · intro read
        by_cases bits : ∀ d ∈ Nat.digits 10 n, d < 2
        · rw [if_pos bits] at read
          exact ofDigits_two positive bits (by simpa using read)
        · rw [if_neg bits] at read
          simp at read
      · rintro rfl
        decide
    unfold RoundTrips
    rw [goal, result]
    simp only [Except.ok.injEq, exists_eq_left', reads]
    omega
  · refine iff_of_false ?_ (by omega)
    rintro ⟨s, written, -⟩
    rw [result] at written
    cases written

/--
In base 10 every `int` but the least is read back, in base 16 those without the sign bit have
digits, and base 2 prints decimal digits.
-/
theorem roundTrips_iff (value : BitVec 32) (base : Nat)
    (accepted : base = 2 ∨ base = 10 ∨ base = 16) :
    RoundTrips value base ↔ base = 10 ∧ value.toInt ≠ -2147483648 ∨
      base = 16 ∧ 0 ≤ value.toInt ∨ base = 2 ∧ (value.toInt = 0 ∨ value.toInt = 1) := by
  obtain rfl | rfl | rfl := accepted
  · simp [roundTrips_binary]
  · simp [roundTrips_decimal]
  · simp [roundTrips_hex]

theorem roundTrips_iff_address : RoundTrips 0x00200000 16 :=
  (roundTrips_iff 0x00200000 16 (Or.inr (Or.inr rfl))).mpr (Or.inr (Or.inl ⟨rfl, by decide⟩))

/-- A kernel address above 2 GB has no digits, and two is `2` in base 2. -/
theorem not_read_back : ¬ RoundTrips 0xC0000000 16 ∧ ¬ RoundTrips 2 2 := by
  constructor
  · rintro ⟨s, written, read⟩
    have result : itoa (0xC0000000 : BitVec 32).toInt 16 = .ok [chr '0', chr 'x'] := by decide
    rw [result] at written
    cases written
    exact absurd read (by decide)
  · rintro ⟨s, written, read⟩
    have result : itoa (2 : BitVec 32).toInt 2 = .ok [chr '2'] := by decide
    rw [result] at written
    cases written
    exact absurd read (by decide)

end GekonOS.Digits
