import GekonOS.Kernel.Shell
import GekonOS.Kernel.String

set_option autoImplicit false

namespace GekonOS.Strings

open Libc

/-!
# Strings in memory

Addresses are taken modulo 2^32, and strings may overlap.
-/

/-- A string with its terminator. -/
structure StringAt (m : Memory) (a : BitVec 32) (bytes : List UInt8) : Prop where
  chars : ∀ i c, bytes[i]? = some c → m (a + BitVec.ofNat 32 i) = c ∧ c ≠ 0
  terminator : m (a + BitVec.ofNat 32 bytes.length) = 0

-- the bytes from an address on, over what is there
def written (a : BitVec 32) (bytes : List UInt8) (m : Memory) : Memory := fun x =>
  bytes[(x - a).toNat]?.getD (m x)

instance (m : Memory) (a : BitVec 32) (bytes : List UInt8) : Decidable (StringAt m a bytes) :=
  decidable_of_iff
    ((∀ i : Fin bytes.length, m (a + BitVec.ofNat 32 i) = bytes[i] ∧ bytes[i] ≠ 0) ∧
      m (a + BitVec.ofNat 32 bytes.length) = 0)
    ⟨fun holds => ⟨fun i c is => by
        obtain ⟨inside, rfl⟩ := List.getElem?_eq_some_iff.mp is
        exact holds.1 ⟨i, inside⟩, holds.2⟩,
      fun at_ => ⟨fun i => at_.chars i _ (List.getElem?_eq_getElem i.isLt), at_.terminator⟩⟩

variable {m : Memory} {a b : BitVec 32} {c : UInt8} {bytes other : List UInt8} {fuel : Nat}

theorem next_address (a : BitVec 32) (i : Nat) :
    a + 1 + BitVec.ofNat 32 i = a + BitVec.ofNat 32 (i + 1) := by
  rw [BitVec.add_assoc, BitVec.ofNat_add, BitVec.add_comm (BitVec.ofNat 32 i)]
  rfl

theorem StringAt.nil_iff : StringAt m a [] ↔ m a = 0 := by
  constructor
  · intro at_
    simpa using at_.terminator
  · intro zero
    exact ⟨fun i c is => by simp at is, by simpa using zero⟩

theorem StringAt.cons_iff :
    StringAt m a (c :: bytes) ↔ (m a = c ∧ c ≠ 0) ∧ StringAt m (a + 1) bytes := by
  constructor
  · intro at_
    refine ⟨by simpa using at_.chars 0 c rfl, fun i d is => ?_, ?_⟩
    · rw [next_address]
      exact at_.chars (i + 1) d is
    · rw [next_address]
      exact at_.terminator
  · rintro ⟨first, rest⟩
    constructor
    · intro i d is
      cases i with
      | zero =>
        obtain rfl : c = d := by simpa using is
        simpa using first
      | succ i =>
        rw [← next_address]
        exact rest.chars i d is
    · rw [List.length_cons, ← next_address]
      exact rest.terminator

theorem StringAt.length_lt (at_ : StringAt m a bytes) : bytes.length < 4294967296 := by
  by_contra long
  have inside : bytes.length % 4294967296 < bytes.length := by omega
  have char := at_.chars _ _ (List.getElem?_eq_getElem inside)
  have zero := at_.terminator
  have same : BitVec.ofNat 32 (bytes.length % 4294967296) = BitVec.ofNat 32 bytes.length := by
    apply BitVec.eq_of_toNat_eq
    simp
  rw [same, zero] at char
  exact char.2 char.1.symm

/-! ## `strlen` and `append` -/

theorem strlenLoop_correct (at_ : StringAt m a bytes) (enough : bytes.length < fuel) (len : Nat) :
    strlenLoop m fuel a len = .ok (len + bytes.length) := by
  induction bytes generalizing a fuel len with
  | nil =>
    obtain ⟨fuel, rfl⟩ : ∃ n, fuel = n + 1 := ⟨fuel - 1, by omega⟩
    rw [strlenLoop, if_neg (not_not_intro (StringAt.nil_iff.mp at_))]
    rfl
  | cons c bytes ih =>
    rw [List.length_cons] at enough
    obtain ⟨fuel, rfl⟩ : ∃ n, fuel = n + 1 := ⟨fuel - 1, by omega⟩
    obtain ⟨⟨rfl, nonzero⟩, rest⟩ := StringAt.cons_iff.mp at_
    rw [strlenLoop, if_pos nonzero, ih rest (by omega), List.length_cons]
    congr 1
    omega

/-! ## `strcmp` -/

theorem charValue_inj {c d : UInt8} : charValue c = charValue d ↔ c = d := by
  constructor
  · intro same
    unfold charValue at same
    have := c.toNat_lt
    have := d.toNat_lt
    apply UInt8.toNat_inj.mp
    have low (e : UInt8) : e < 128 ↔ e.toNat < 128 := UInt8.lt_iff_toNat_lt
    simp only [low] at same
    split at same <;> split at same <;> omega
  · exact congrArg charValue

-- the terminator takes part in the order
def ordered (bytes : List UInt8) : List Int := (bytes ++ [0]).map charValue

/-- The result by the first place where the strings differ. -/
structure Compares (bytes other : List UInt8) (result : Int) : Prop where
  equal : result = 0 ↔ bytes = other
  less : result < 0 ↔ ordered bytes < ordered other

theorem Compares.cons {result : Int} (rest : Compares bytes other result) (c : UInt8) :
    Compares (c :: bytes) (c :: other) result := by
  refine ⟨by rw [rest.equal, List.cons_inj_right], ?_⟩
  rw [rest.less]
  change _ ↔ charValue c :: ordered bytes < charValue c :: ordered other
  rw [List.cons_lt_cons_iff]
  simp

-- what decides when the first characters differ
theorem Compares.differ {c d : UInt8} {first second : List UInt8}
    (bytes_ : bytes ++ [0] = c :: first) (other_ : other ++ [0] = d :: second) (differ : c ≠ d) :
    Compares bytes other (charValue c - charValue d) := by
  constructor
  · have values : charValue c - charValue d ≠ 0 := by
      intro zero
      exact differ (charValue_inj.mp (by omega))
    have lists : bytes ≠ other := by
      rintro rfl
      rw [bytes_] at other_
      exact differ (List.cons.inj other_).1
    exact ⟨fun zero => absurd zero values, fun same => absurd same lists⟩
  · unfold ordered
    rw [bytes_, other_, List.map_cons, List.map_cons, List.cons_lt_cons_iff]
    have values : charValue c ≠ charValue d := fun same => differ (charValue_inj.mp same)
    constructor
    · intro less
      exact Or.inl (by omega)
    · rintro (less | ⟨same, -⟩)
      · omega
      · exact absurd same values

theorem strcmp_correct (first : StringAt m a bytes) (second : StringAt m b other)
    (enough : bytes.length < fuel) :
    ∃ result, strcmp m fuel a b = .ok result ∧ Compares bytes other result := by
  induction bytes generalizing a b other fuel with
  | nil =>
    obtain ⟨fuel, rfl⟩ : ∃ n, fuel = n + 1 := ⟨fuel - 1, by omega⟩
    have zero := StringAt.nil_iff.mp first
    refine ⟨charValue (m a) - charValue (m b), ?_, ?_⟩
    · rw [strcmp, if_neg fun goes => goes.1 zero]
    · rw [zero]
      cases other with
      | nil =>
        rw [StringAt.nil_iff.mp second]
        exact ⟨by decide, by decide⟩
      | cons d other =>
        obtain ⟨⟨rfl, nonzero⟩, -⟩ := StringAt.cons_iff.mp second
        exact Compares.differ rfl rfl (Ne.symm nonzero)
  | cons c bytes ih =>
    rw [List.length_cons] at enough
    obtain ⟨fuel, rfl⟩ : ∃ n, fuel = n + 1 := ⟨fuel - 1, by omega⟩
    obtain ⟨⟨rfl, nonzero⟩, rest⟩ := StringAt.cons_iff.mp first
    by_cases same : m b = m a
    · cases other with
      | nil => exact absurd (same ▸ StringAt.nil_iff.mp second) nonzero
      | cons d other =>
        obtain ⟨⟨is, -⟩, rest'⟩ := StringAt.cons_iff.mp second
        obtain rfl : d = m a := is.symm.trans same
        have left : bytes.length < fuel := by omega
        obtain ⟨result, compared, compares⟩ := ih rest rest' left
        refine ⟨result, ?_, compares.cons _⟩
        rw [strcmp, if_pos ⟨nonzero, same ▸ nonzero, same.symm⟩, compared]
    · refine ⟨charValue (m a) - charValue (m b), ?_, ?_⟩
      · rw [strcmp, if_neg fun goes => same goes.2.2.symm]
      · cases other with
        | nil =>
          rw [StringAt.nil_iff.mp second]
          exact Compares.differ rfl rfl nonzero
        | cons d other =>
          obtain ⟨⟨rfl, -⟩, -⟩ := StringAt.cons_iff.mp second
          exact Compares.differ rfl rfl (Ne.symm same)

/-- `strcmp` orders strings by signed characters, the terminator included: a character from 128 on
stands before the end of the string. -/
theorem strcmp_orders (m : Memory) (s1 s2 : BitVec 32) (first second : List UInt8) (fuel : Nat)
    (at1 : StringAt m s1 first) (at2 : StringAt m s2 second) (enough : first.length < fuel) :
    ∃ result, strcmp m fuel s1 s2 = .ok result ∧ (result = 0 ↔ first = second) ∧
      (result < 0 ↔ ordered first < ordered second) ∧
      (0 < result ↔ ordered second < ordered first) := by
  obtain ⟨result, compared, equal, less⟩ := strcmp_correct at1 at2 enough
  refine ⟨result, compared, equal, less, ?_⟩
  constructor
  · intro positive
    rcases lt_trichotomy (ordered first) (ordered second) with below | same | above
    · have := less.mpr below
      omega
    · have chars := List.map_injective_iff.mpr (fun _ _ => charValue_inj.mp) same
      have := equal.mpr (List.append_cancel_right chars)
      omega
    · exact above
  · intro above
    rcases lt_trichotomy result 0 with negative | zero | positive
    · exact absurd (less.mp negative) above.asymm
    · rw [equal.mp zero] at above
      exact absurd above (lt_irrefl _)
    · exact positive

def twoChars : Memory := fun x => if x = 0 then chr 'a' else if x = 1 then chr 'b' else 0

theorem strcmp_orders_twoChars : ∃ result, strcmp twoChars 3 0 1 = .ok result ∧ result < 0 := by
  obtain ⟨result, compared, -, less, -⟩ := strcmp_orders twoChars 0 1 [chr 'a', chr 'b'] [chr 'b'] 3
    (by decide +kernel) (by decide +kernel) (by decide)
  exact ⟨result, compared, less.mpr (by decide)⟩

/-! ## `strcpy` -/

-- how far one address lies behind another
def gap (a b : BitVec 32) : Nat := (b - a).toNat

-- a store at `b` leaves a string that it does not hit
theorem StringAt.update (at_ : StringAt m a bytes) (value : UInt8)
    (missed : bytes.length < gap a b) : StringAt (Function.update m b value) a bytes := by
  have short := at_.length_lt
  have other {i : Nat} (inside : i ≤ bytes.length) : a + BitVec.ofNat 32 i ≠ b := by
    unfold gap at missed
    rintro rfl
    bv_omega
  constructor
  · intro i c is
    obtain ⟨inside, -⟩ := List.getElem?_eq_some_iff.mp is
    rw [Function.update_of_ne (other (Nat.le_of_lt inside))]
    exact at_.chars i c is
  · rw [Function.update_of_ne (other (Nat.le_refl _))]
    exact at_.terminator

theorem written_cons (a : BitVec 32) (c : UInt8) (bytes : List UInt8) (m : Memory)
    (short : bytes.length < 4294967296) :
    written (a + 1) bytes (Function.update m a c) = written a (c :: bytes) m := by
  funext x
  unfold written
  by_cases here : x = a
  · subst here
    have last : (x - (x + 1)).toNat = 4294967295 := by bv_omega
    have first : (x - x).toNat = 0 := by simp
    rw [last, first, Function.update_self, List.getElem?_eq_none (by omega)]
    rfl
  · have next : (x - a).toNat = (x - (a + 1)).toNat + 1 := by bv_omega
    rw [next, List.getElem?_cons_succ, Function.update_of_ne here]

/-- The string is copied unless the copy runs over the rest of it. -/
theorem strcpyLoop_correct (at_ : StringAt m a bytes) (enough : bytes.length < fuel)
    (clear : gap a b = 0 ∨ bytes.length < gap a b) :
    strcpyLoop fuel b a m = .ok (written b (bytes ++ [0]) m) := by
  induction bytes generalizing a b m fuel with
  | nil =>
    obtain ⟨fuel, rfl⟩ : ∃ n, fuel = n + 1 := ⟨fuel - 1, by omega⟩
    have zero := StringAt.nil_iff.mp at_
    have one := written_cons b 0 [] m (by decide)
    simp only [strcpyLoop, zero, ne_eq, not_true, if_false, List.nil_append, ← one]
    rfl
  | cons c bytes ih =>
    rw [List.length_cons] at enough
    obtain ⟨fuel, rfl⟩ : ∃ n, fuel = n + 1 := ⟨fuel - 1, by omega⟩
    have short := at_.length_lt
    rw [List.length_cons] at short clear
    obtain ⟨⟨rfl, nonzero⟩, rest⟩ := StringAt.cons_iff.mp at_
    -- the store misses what is still to be copied
    have missed : bytes.length < gap (a + 1) b := by
      unfold gap at clear ⊢
      bv_omega
    have clear' : gap (a + 1) (b + 1) = 0 ∨ bytes.length < gap (a + 1) (b + 1) := by
      unfold gap at clear ⊢
      bv_omega
    rw [strcpyLoop]
    simp only [ne_eq, nonzero, not_false_iff, if_true]
    rw [ih (rest.update (m a) missed) (by omega) clear', List.cons_append,
      ← written_cons b (m a) (bytes ++ [0]) m (by simp; omega)]

-- a byte that is copied before the terminator is reached
theorem strcpyLoop_runs {d : Nat} (fuel : Nat) (positive : 0 < d) (short : d < 4294967296)
    (nonzero : ∀ j < d, m (a + BitVec.ofNat 32 j) ≠ 0) :
    strcpyLoop fuel (a + BitVec.ofNat 32 d) a m = .error .outOfFuel := by
  induction fuel generalizing a m with
  | zero => rfl
  | succ fuel ih =>
    have first : m a ≠ 0 := by simpa using nonzero 0 positive
    rw [strcpyLoop]
    simp only [ne_eq, first, not_false_iff, if_true]
    rw [show a + BitVec.ofNat 32 d + 1 = a + 1 + BitVec.ofNat 32 d by bv_omega]
    apply ih
    intro j below
    by_cases last : j + 1 = d
    · rw [show a + 1 + BitVec.ofNat 32 j = a + BitVec.ofNat 32 d by bv_omega, Function.update_self]
      exact first
    · have apart : a + 1 + BitVec.ofNat 32 j ≠ a + BitVec.ofNat 32 d := by bv_omega
      rw [Function.update_of_ne apart, next_address]
      exact nonzero (j + 1) (by omega)

theorem strcpyLoop_more {result : Memory} (done : strcpyLoop fuel b a m = .ok result) (more : Nat) :
    strcpyLoop (fuel + more) b a m = .ok result := by
  induction fuel generalizing a b m with
  | zero => cases done
  | succ fuel ih =>
    rw [Nat.succ_add, strcpyLoop]
    rw [strcpyLoop] at done
    by_cases nonzero : m a ≠ 0
    · rw [if_pos nonzero] at done ⊢
      exact ih done
    · rw [if_neg nonzero] at done ⊢
      exact done

-- the new character goes over the terminator
theorem append_correct (at_ : StringAt m a bytes) (nonzero : c ≠ 0)
    (room : bytes.length + 1 < 4294967296) (enough : bytes.length < fuel) :
    ∃ m', append fuel a c m = .ok m' ∧
      m' = written (a + BitVec.ofNat 32 bytes.length) [c, 0] m ∧ StringAt m' a (bytes ++ [c]) := by
  have both : written (a + BitVec.ofNat 32 bytes.length) [c, 0] m =
      Function.update (Function.update m (a + BitVec.ofNat 32 bytes.length) c)
        (a + BitVec.ofNat 32 bytes.length + 1) 0 := by
    rw [← written_cons _ c [0] m (by decide), ← written_cons _ 0 [] _ (by decide)]
    rfl
  refine ⟨_, ?_, rfl, ?_⟩
  · simp only [append, strlen, strlenLoop_correct at_ enough, Nat.zero_add, both]
    rfl
  · constructor
    · intro i d is
      by_cases old : i < bytes.length
      · rw [List.getElem?_append_left old] at is
        obtain ⟨char, known⟩ := at_.chars i d is
        refine ⟨?_, known⟩
        rw [both, Function.update_of_ne (by bv_omega), Function.update_of_ne (by bv_omega), char]
      · have last : i = bytes.length := by
          have := (List.getElem?_eq_some_iff.mp is).1
          simp only [List.length_append, List.length_singleton] at this
          omega
        subst last
        obtain rfl : c = d := by simpa using is
        refine ⟨?_, nonzero⟩
        rw [both, Function.update_of_ne (by bv_omega), Function.update_self]
    · rw [both, List.length_append, List.length_singleton, BitVec.ofNat_add, ← BitVec.add_assoc]
      exact Function.update_self ..

theorem StringAt.written (at_ : StringAt m a bytes) (b : BitVec 32) :
    StringAt (written b (bytes ++ [0]) m) b bytes := by
  have short := at_.length_lt
  have offset {i : Nat} (inside : i ≤ bytes.length) : (b + BitVec.ofNat 32 i - b).toNat = i := by
    bv_omega
  constructor
  · intro i c is
    obtain ⟨inside, -⟩ := List.getElem?_eq_some_iff.mp is
    refine ⟨?_, (at_.chars i c is).2⟩
    rw [Strings.written, offset (Nat.le_of_lt inside), List.getElem?_append_left inside, is]
    rfl
  · rw [Strings.written, offset (Nat.le_refl _), List.getElem?_concat_length]
    rfl

/-- `strcpy` returns, with the copy made and nothing else changed, unless the copy begins behind the
first character of the string, up to its terminator; then it never comes to an end. -/
theorem strcpy_returns_iff (m : Memory) (dest src : BitVec 32) (bytes : List UInt8)
    (at_ : StringAt m src bytes) :
    ((∃ fuel result, Libc.strcpy fuel dest src m = .ok result) ↔
      ¬ (0 < gap src dest ∧ gap src dest ≤ bytes.length)) ∧
    ∀ fuel p m', Libc.strcpy fuel dest src m = .ok (p, m') →
      p = dest ∧ m' = written dest (bytes ++ [0]) m ∧ StringAt m' dest bytes := by
  have copies (clear : ¬ (0 < gap src dest ∧ gap src dest ≤ bytes.length)) :
      strcpyLoop (bytes.length + 1) dest src m = .ok (written dest (bytes ++ [0]) m) :=
    strcpyLoop_correct at_ (Nat.lt_succ_self _) (by omega)
  have runs (covered : 0 < gap src dest ∧ gap src dest ≤ bytes.length) (fuel : Nat) :
      strcpyLoop fuel dest src m = .error .outOfFuel := by
    have short := at_.length_lt
    have ahead : dest = src + BitVec.ofNat 32 (gap src dest) := by
      unfold gap
      bv_omega
    rw [ahead]
    refine strcpyLoop_runs fuel covered.1 (by omega) ?_
    intro j below
    have inside : j < bytes.length := by omega
    obtain ⟨char, nonzero⟩ := at_.chars j _ (List.getElem?_eq_getElem inside)
    rw [char]
    exact nonzero
  constructor
  · constructor
    · rintro ⟨fuel, result, done⟩ covered
      simp only [Libc.strcpy, runs covered fuel] at done
      cases done
    · intro clear
      refine ⟨bytes.length + 1, (dest, written dest (bytes ++ [0]) m), ?_⟩
      simp only [Libc.strcpy, copies clear]
      rfl
  · intro fuel p m' done
    by_cases covered : 0 < gap src dest ∧ gap src dest ≤ bytes.length
    · simp only [Libc.strcpy, runs covered fuel] at done
      cases done
    · have same : strcpyLoop fuel dest src m = .ok m' ∧ p = dest := by
        simp only [Libc.strcpy] at done
        cases loop : strcpyLoop fuel dest src m with
        | error fault =>
          rw [loop] at done
          cases done
        | ok m'' =>
          rw [loop] at done
          obtain ⟨rfl, rfl⟩ := Prod.mk.inj (Except.ok.inj done)
          exact ⟨rfl, rfl⟩
      have long := strcpyLoop_more same.1 (bytes.length + 1)
      rw [Nat.add_comm, strcpyLoop_more (copies covered) fuel] at long
      obtain rfl := Except.ok.inj long
      exact ⟨same.2, rfl, at_.written dest⟩

-- copied behind the terminator and onto the second character
theorem strcpy_returns_iff_twoChars :
    (∃ fuel result, Libc.strcpy fuel 3 0 twoChars = .ok result) ∧
      ¬ ∃ fuel result, Libc.strcpy fuel 1 0 twoChars = .ok result := by
  have at_ : StringAt twoChars 0 [chr 'a', chr 'b'] := by decide +kernel
  exact ⟨(strcpy_returns_iff twoChars 3 0 _ at_).1.mpr (by decide),
    fun returns => (strcpy_returns_iff twoChars 1 0 _ at_).1.mp returns (by decide)⟩

/-! ## `memcpy` -/

-- the bytes that are copied, by what they were at the start
def copied (source dest : BitVec 32) (n : Nat) (m : Memory) : Memory := fun x =>
  if gap dest x < n then m (source + BitVec.ofNat 32 (gap dest x % gap source dest)) else m x

-- the byte at `source + i` has been stored to if the copies have come that far
theorem copied_source {source dest : BitVec 32} {i : Nat} (small : i < 4294967296) (m : Memory) :
    copied source dest i m (source + BitVec.ofNat 32 i) =
      m (source + BitVec.ofNat 32 (i % gap source dest)) := by
  unfold copied
  by_cases reached : 0 < gap source dest ∧ gap source dest ≤ i
  · have back : gap dest (source + BitVec.ofNat 32 i) = i - gap source dest := by
      unfold gap at reached ⊢
      bv_omega
    rw [back, if_pos (by omega), ← Nat.mod_eq_sub_mod reached.2]
  · have ahead : ¬ gap dest (source + BitVec.ofNat 32 i) < i := by
      unfold gap at reached ⊢
      bv_omega
    rw [if_neg ahead]
    by_cases same : gap source dest = 0
    · rw [same, Nat.mod_zero]
    · rw [Nat.mod_eq_of_lt (by omega)]

theorem copied_next {source dest : BitVec 32} {i : Nat} (small : i < 4294967296) (m : Memory) :
    Function.update (copied source dest i m) (dest + BitVec.ofNat 32 i)
      (copied source dest i m (source + BitVec.ofNat 32 i)) = copied source dest (i + 1) m := by
  funext x
  rw [copied_source small]
  by_cases here : x = dest + BitVec.ofNat 32 i
  · subst here
    have at_ : gap dest (dest + BitVec.ofNat 32 i) = i := by
      unfold gap
      bv_omega
    rw [Function.update_self, copied, at_, if_pos (Nat.lt_succ_self i)]
  · have other : gap dest x ≠ i := by
      unfold gap
      bv_omega
    rw [Function.update_of_ne here]
    unfold copied
    by_cases before : gap dest x < i
    · rw [if_pos before, if_pos (by omega)]
    · rw [if_neg before, if_neg (by omega)]

theorem memcpyLoop_correct {source dest : BitVec 32} {left i : Nat}
    (small : i + left ≤ 4294967296) (m : Memory) :
    memcpyLoop source dest left (BitVec.ofNat 32 i) (copied source dest i m) =
      copied source dest (i + left) m := by
  induction left generalizing i with
  | zero => rfl
  | succ left ih =>
    have next : BitVec.ofNat 32 i + 1 = BitVec.ofNat 32 (i + 1) := (BitVec.ofNat_add ..).symm
    rw [memcpyLoop, copied_next (by omega), next, ih (by omega)]
    congr 1
    omega

theorem memcpy_copied (source dest : BitVec 32) {nbytes : Int} (small : nbytes < 2147483648)
    (m : Memory) : memcpy source dest nbytes m = copied source dest nbytes.toNat m := by
  have none : copied source dest 0 m = m := funext fun x => if_neg (Nat.not_lt_zero _)
  have all : memcpyLoop source dest nbytes.toNat (BitVec.ofNat 32 0) (copied source dest 0 m) =
      copied source dest (0 + nbytes.toNat) m := memcpyLoop_correct (by omega) m
  rw [none, Nat.zero_add] at all
  exact all

/-- What `memcpy` leaves: the bytes as they were, unless the copy begins at one of them behind the
first; then those in front of it are repeated. -/
theorem memcpy_repeats (source dest : BitVec 32) (nbytes : Int) (small : nbytes < 2147483648) :
    (∀ m, memcpy source dest nbytes m = copied source dest nbytes.toNat m) ∧
      ((∀ m : Memory, ∀ i < nbytes.toNat, memcpy source dest nbytes m (dest + BitVec.ofNat 32 i) =
          m (source + BitVec.ofNat 32 i)) ↔
        ¬ (0 < gap source dest ∧ gap source dest < nbytes.toNat)) := by
  have at_ (m : Memory) {i : Nat} (inside : i < nbytes.toNat) :
      memcpy source dest nbytes m (dest + BitVec.ofNat 32 i) =
        m (source + BitVec.ofNat 32 (i % gap source dest)) := by
    have offset : gap dest (dest + BitVec.ofNat 32 i) = i := by
      unfold gap
      bv_omega
    rw [memcpy_copied source dest small, copied, offset, if_pos inside]
  refine ⟨fun m => memcpy_copied source dest small m, ?_, ?_⟩
  · rintro exact_ ⟨positive, inside⟩
    -- a memory with a single byte in front
    have first := exact_ (fun x => if x = source then 1 else 0) _ inside
    have behind : source + BitVec.ofNat 32 (gap source dest) ≠ source := by
      unfold gap at positive ⊢
      bv_omega
    rw [at_ _ inside, Nat.mod_self, if_neg behind, if_pos (by simp)] at first
    cases first
  · intro clear m i inside
    rw [at_ m inside]
    by_cases same : gap source dest = 0
    · rw [same, Nat.mod_zero]
    · rw [Nat.mod_eq_of_lt (by omega)]

theorem memcpy_repeats_twoChars : memcpy 0 1 3 twoChars 3 = chr 'a' ∧
    ¬ ∀ m : Memory, ∀ i < 3,
      memcpy 0 1 3 m (1 + BitVec.ofNat 32 i) = m (0 + BitVec.ofNat 32 i) := by
  obtain ⟨leaves, exact_⟩ := memcpy_repeats 0 1 3 (by decide)
  refine ⟨?_, fun all => exact_.mp all (by decide)⟩
  rw [leaves]
  decide +kernel

/-! ## Strings that are built -/

theorem memset_correct (val : UInt8) {len : Nat} (small : len ≤ 4294967296) (temp : BitVec 32)
    (m : Memory) : memset val len temp m = fun x => if gap temp x < len then val else m x := by
  induction len generalizing temp m with
  | zero => exact funext fun x => (if_neg (Nat.not_lt_zero _)).symm
  | succ len ih =>
    rw [memset, ih (by omega)]
    funext x
    by_cases here : x = temp
    · subst here
      have last : gap (x + 1) x = 4294967295 := by
        unfold gap
        bv_omega
      have first : gap x x = 0 := by simp [gap]
      rw [last, first, if_neg (by omega), if_pos (by omega), Function.update_self]
    · have next : gap temp x = gap (temp + 1) x + 1 := by
        unfold gap
        bv_omega
      rw [next, Function.update_of_ne here]
      simp only [Nat.add_lt_add_iff_right]

-- the calls of `append` one after the other
def appends (fuel : Nat) (s : BitVec 32) : List UInt8 → Memory → Except Fault Memory
  | [], m => .ok m
  | c :: cs, m => append fuel s c m >>= appends fuel s cs

theorem appends_correct {cs : List UInt8} (at_ : StringAt m a bytes) (nonzero : ∀ c ∈ cs, c ≠ 0)
    (room : bytes.length + cs.length < 4294967296) (enough : bytes.length + cs.length ≤ fuel) :
    ∃ m', appends fuel a cs m = .ok m' ∧ StringAt m' a (bytes ++ cs) ∧
      ∀ x, bytes.length + cs.length < gap a x → m' x = m x := by
  induction cs generalizing m bytes with
  | nil =>
    rw [List.append_nil]
    exact ⟨m, rfl, at_, fun _ _ => rfl⟩
  | cons c cs ih =>
    rw [List.length_cons] at room enough ⊢
    obtain ⟨m1, first, changed, next⟩ : ∃ m1, append fuel a c m = .ok m1 ∧ _ :=
      append_correct at_ (nonzero c List.mem_cons_self) (by omega) (by omega)
    have length : (bytes ++ [c]).length = bytes.length + 1 := by simp
    obtain ⟨m', rest, final, frame⟩ := ih next
      (fun d member => nonzero d (List.mem_cons_of_mem c member)) (by omega) (by omega)
    refine ⟨m', ?_, ?_, fun x outside => ?_⟩
    · rw [appends, first]
      exact rest
    · simpa using final
    · have beyond : ([c, 0] : List UInt8)[(x - (a + BitVec.ofNat 32 bytes.length)).toNat]? =
          none := by
        rw [List.getElem?_eq_none_iff]
        change 2 ≤ _
        unfold gap at outside
        bv_omega
      rw [frame x (by omega), changed, written, beyond]
      rfl

/--
A buffer that `memset` has cleared and that `append` then adds characters to holds exactly these, as
`strlen` says, and no byte behind both has changed.
-/
theorem appends_build (m : Memory) (a : BitVec 32) (cs : List UInt8) {len fuel : Nat}
    (positive : 0 < len) (word : len < 4294967296) (nonzero : ∀ c ∈ cs, c ≠ 0)
    (room : cs.length < 2147483648) (enough : cs.length < fuel) :
    ∃ m', appends fuel a cs (memset 0 len a m) = .ok m' ∧ StringAt m' a cs ∧
      strlen m' fuel a = .ok cs.length ∧
      ∀ x, len ≤ gap a x → cs.length < gap a x → m' x = m x := by
  have cleared := memset_correct 0 word.le a m
  have empty : StringAt (memset 0 len a m) a [] := by
    rw [StringAt.nil_iff, cleared]
    exact if_pos (by simpa [gap] using positive)
  have none : ([] : List UInt8).length = 0 := rfl
  obtain ⟨m', result, final, frame⟩ : ∃ m', appends fuel a cs (memset 0 len a m) = .ok m' ∧ _ :=
    appends_correct empty nonzero (by omega) (by omega)
  rw [List.nil_append] at final
  refine ⟨m', result, final, ?_, fun x behind outside => ?_⟩
  · rw [strlen, strlenLoop_correct final enough, Nat.zero_add]
  · rw [frame x (by omega), cleared]
    exact if_neg (Nat.not_lt.mpr behind)

theorem appends_build_twoChars :
    ∃ m', appends 3 0x9000 [chr 'o', chr 'k'] (memset 0 16 0x9000 twoChars) = .ok m' ∧
      StringAt m' 0x9000 [chr 'o', chr 'k'] := by
  obtain ⟨m', result, at_, -⟩ : ∃ m', appends 3 0x9000 [chr 'o', chr 'k']
      (memset 0 16 0x9000 twoChars) = .ok m' ∧ _ :=
    appends_build twoChars 0x9000 [chr 'o', chr 'k'] (by decide) (by decide) (by decide +kernel)
      (show 2 < 2147483648 by decide) (by decide)
  exact ⟨m', result, at_⟩

/-! ## The tests of `parse_cli` -/

-- `runCommands` with the calls of `strcmp`
def runCommandsIn (m : Memory) (fuel : Nat) (cli : BitVec 32) (literal : String → BitVec 32)
    (cliLen : Nat) : List (String × Nat × Command) → Except Fault (List ConsoleCall × Outcome)
  | [] => .ok ([], .returned 0)
  | (name, len, command) :: rest => do
    let order ← strcmp m fuel cli (literal name)
    if order = 0 ∧ cliLen = len then
      match command with
      | .print texts => pure (texts.map .kprintf, .returned 1)
      | .dump =>
        let (calls, outcome) ← runCommandsIn m fuel cli literal cliLen rest
        pure (.kprintfRegisters :: calls, outcome)
      | .halt => pure ([.kprintf "stopping interrupts...", .kprintf "Ok.\n",
          .kprintf "system halted!\n"], .halted)
      | .gui => pure ([], .guiInit)
    else runCommandsIn m fuel cli literal cliLen rest

theorem runCommandsIn_correct {cli : BitVec 32} {literal : String → BitVec 32} {line : List UInt8}
    (at_ : StringAt m cli line) (enough : line.length < fuel) (cliLen : Nat)
    (list : List (String × Nat × Command))
    (literals : ∀ entry ∈ list, StringAt m (literal entry.1) (bytesOf entry.1)) :
    runCommandsIn m fuel cli literal cliLen list = .ok (runCommands line cliLen list) := by
  induction list with
  | nil => rfl
  | cons entry rest ih =>
    obtain ⟨name, len, command⟩ := entry
    have later := ih fun other member => literals other (List.mem_cons_of_mem _ member)
    obtain ⟨order, compared, compares⟩ :=
      strcmp_correct at_ (literals _ List.mem_cons_self) enough
    simp only [runCommandsIn, runCommands, compared, bind, Except.bind, compares.equal, later]
    split
    next =>
      cases command <;> rfl
    next => rfl

theorem takeWhile_terminated {list : List UInt8} (ends : 0 ∈ list) :
    list[(list.takeWhile (· ≠ 0)).length]? = some 0 := by
  induction list with
  | nil => cases ends
  | cons c rest ih =>
    by_cases zero : c = 0
    · simp [zero]
    · have later : 0 ∈ rest := (List.mem_cons.mp ends).resolve_left (Ne.symm zero)
      rw [List.takeWhile_cons_of_pos (by simpa using zero), List.length_cons,
        List.getElem?_cons_succ]
      exact ih later

-- an array with a zero in it
theorem stringAt_takeWhile {list : List UInt8} (ends : 0 ∈ list)
    (holds : ∀ i c, list[i]? = some c → m (a + BitVec.ofNat 32 i) = c) :
    StringAt m a (list.takeWhile (· ≠ 0)) := by
  constructor
  · intro i c is
    obtain ⟨inside, -⟩ := List.getElem?_eq_some_iff.mp is
    have nonzero := List.mem_takeWhile_imp (List.mem_of_getElem? is)
    have whole : list[i]? = (list.takeWhile (· ≠ 0))[i]? := by
      conv_lhs => rw [← List.takeWhile_append_dropWhile (p := fun c => c ≠ 0) (l := list)]
      exact List.getElem?_append_left inside
    exact ⟨holds i c (whole.trans is), by simpa using nonzero⟩
  · exact holds _ 0 (takeWhile_terminated ends)

/-- The tests of `parse_cli` on the memory: with the array and the literals in it they find the
command that the line is, and no other. -/
theorem parseCli_tests (m : Memory) (fuel : Nat) (cli : BitVec 32) (literal : String → BitVec 32)
    (before after : Cli) (calls : List ConsoleCall) (outcome : Outcome) (enough : 256 ≤ fuel)
    (parsed : parseCli before = some (after, calls, outcome))
    (array : ∀ i c, after.cli.toList[i]? = some c → m (cli + BitVec.ofNat 32 i) = c)
    (literals : ∀ entry ∈ commands, StringAt m (literal entry.1) (bytesOf entry.1)) :
    runCommandsIn m fuel cli literal after.cliLen commands = .ok (calls, outcome) := by
  unfold parseCli Cli.store at parsed
  by_cases within : before.cliLen < 256
  · rw [dif_pos within] at parsed
    obtain ⟨rfl, rest⟩ := Prod.mk.inj (Option.some.inj parsed)
    have ends : (0 : UInt8) ∈ (before.cli.set before.cliLen 0).toList :=
      Vector.mem_toList_iff.mpr (Vector.mem_set within)
    have at_ := stringAt_takeWhile ends array
    have short : ((before.cli.set before.cliLen 0).toList.takeWhile (· ≠ 0)).length < 256 := by
      obtain ⟨inside, -⟩ := List.getElem?_eq_some_iff.mp (takeWhile_terminated ends)
      rwa [Vector.length_toList] at inside
    rw [← rest]
    exact runCommandsIn_correct at_ (by omega) before.cliLen commands literals
  · rw [dif_neg within] at parsed
    cases parsed

-- the array and behind it the literals, each in a block of its own
def helpCli : Cli :=
  { cliLen := 4, cli := Vector.ofFn fun i => (bytesOf "help")[i.val]?.getD 0 }

def literalAt (name : String) : BitVec 32 :=
  BitVec.ofNat 32 (256 * (1 + commands.findIdx fun entry => entry.1 = name))

def helpMemory : Memory := fun x =>
  if x.toNat < 256 then helpCli.cli.toList[x.toNat]?.getD 0
  else ((commands[x.toNat / 256 - 1]?).bind fun entry =>
    (bytesOf entry.1)[x.toNat % 256]?).getD 0

theorem parseCli_tests_help : ∃ calls, parseCli helpCli = some (helpCli, calls, .returned 1) ∧
    runCommandsIn helpMemory 256 0 literalAt 4 commands = .ok (calls, .returned 1) := by
  have stored : helpCli.cli.set 4 0 = helpCli.cli := by decide +kernel
  have outcome : (runCommands helpCli.string 4 commands).2 = .returned 1 := by decide +kernel
  have parsed : parseCli helpCli =
      some (helpCli, (runCommands helpCli.string 4 commands).1, .returned 1) := by
    have same : helpCli.store 4 0 = some helpCli := by
      rw [Cli.store, dif_pos (by decide), stored]
    have run : parseCli helpCli = some (helpCli, runCommands helpCli.string 4 commands) := by
      rw [parseCli, show helpCli.cliLen = 4 from rfl, same]
      rfl
    rw [run, ← outcome]
  have literals : ∀ entry ∈ commands,
      StringAt helpMemory (literalAt entry.1) (bytesOf entry.1) := by decide +kernel
  refine ⟨_, parsed, parseCli_tests helpMemory 256 0 literalAt helpCli helpCli _ _ (Nat.le_refl _)
    parsed ?_ literals⟩
  intro i c is
  obtain ⟨inside, -⟩ := List.getElem?_eq_some_iff.mp is
  rw [Vector.length_toList] at inside
  have at_ : (0 + BitVec.ofNat 32 i : BitVec 32).toNat = i := by bv_omega
  rw [helpMemory, at_, if_pos inside, is]
  rfl

end GekonOS.Strings
