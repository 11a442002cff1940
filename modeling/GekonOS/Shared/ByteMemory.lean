import Mathlib

set_option autoImplicit false

/-!
# Byte-addressed memory with little-endian words

A memory maps every address to a byte. `Set.EqOn` states that two memories agree on a region.
-/

namespace ByteMemory

abbrev Mem : Type := Nat → UInt8

def read8 (m : Mem) (a : Nat) : Nat := (m a).toNat

def read32 (m : Mem) (a : Nat) : Nat :=
  (m a).toNat + 256 * (m (a + 1)).toNat + 65536 * (m (a + 2)).toNat +
    16777216 * (m (a + 3)).toNat

def write8 (m : Mem) (a v : Nat) : Mem := fun x =>
  if x = a then UInt8.ofNat v else m x

def write32 (m : Mem) (a v : Nat) : Mem := fun x =>
  if a ≤ x ∧ x < a + 4 then UInt8.ofNat (v / 256 ^ (x - a)) else m x

-- `memset(a, v, len)`
def fill (m : Mem) (a v len : Nat) : Mem := fun x =>
  if a ≤ x ∧ x < a + len then UInt8.ofNat v else m x

theorem read32_lt (m : Mem) (a : Nat) : read32 m a < 4294967296 := by
  have h0 := (m a).toNat_lt
  have h1 := (m (a + 1)).toNat_lt
  have h2 := (m (a + 2)).toNat_lt
  have h3 := (m (a + 3)).toNat_lt
  unfold read32
  omega

theorem read32_congr {m m' : Mem} {a : Nat} (same : Set.EqOn m' m (Set.Ico a (a + 4))) :
    read32 m' a = read32 m a := by
  have byte (k : Nat) (lt : k < 4) : m' (a + k) = m (a + k) :=
    same ⟨by omega, by omega⟩
  have h0 := byte 0 (by decide)
  simp only [Nat.add_zero] at h0
  simp only [read32, h0, byte 1, byte 2, byte 3, Nat.reduceLT]

-- the same four bytes give the same word, wherever they lie
theorem read32_move {m m' : Mem} {a b : Nat} (same : ∀ i < 4, m' (b + i) = m (a + i)) :
    read32 m' b = read32 m a := by
  have h0 := same 0 (by decide)
  simp only [Nat.add_zero] at h0
  simp only [read32, h0, same 1 (by decide), same 2 (by decide), same 3 (by decide)]

theorem ofNat_read32 (m : Mem) (a : Nat) {i : Nat} (within : i < 4) :
    UInt8.ofNat (read32 m a / 256 ^ i) = m (a + i) := by
  have h0 := (m a).toNat_lt
  have h1 := (m (a + 1)).toNat_lt
  have h2 := (m (a + 2)).toNat_lt
  have h3 := (m (a + 3)).toNat_lt
  apply UInt8.toNat_inj.mp
  rw [UInt8.toNat_ofNat']
  unfold read32
  interval_cases i
  · simp only [Nat.add_zero, pow_zero, Nat.div_one]
    omega
  · omega
  · omega
  · omega

theorem read8_congr {m m' : Mem} {a : Nat} (same : m' a = m a) : read8 m' a = read8 m a := by
  simp only [read8, same]

@[simp] theorem read32_write32 (m : Mem) (a v : Nat) :
    read32 (write32 m a v) a = v % 4294967296 := by
  simp only [read32, write32]
  simp
  omega

theorem write32_apply_ne (m : Mem) {a x : Nat} (v : Nat) (apart : x < a ∨ a + 4 ≤ x) :
    write32 m a v x = m x := by
  simp only [write32]
  rw [if_neg (by omega)]

theorem write8_apply_ne (m : Mem) {a x : Nat} (v : Nat) (apart : x ≠ a) :
    write8 m a v x = m x := by
  simp only [write8, if_neg apart]

theorem fill_apply_ne (m : Mem) {a x len : Nat} (v : Nat) (apart : x < a ∨ a + len ≤ x) :
    fill m a v len x = m x := by
  simp only [fill]
  rw [if_neg (by omega)]

theorem write32_eqOn (m : Mem) (a v : Nat) {s : Set Nat}
    (apart : ∀ x ∈ s, x < a ∨ a + 4 ≤ x) : Set.EqOn (write32 m a v) m s :=
  fun _ member => write32_apply_ne m v (apart _ member)

theorem write8_eqOn (m : Mem) (a v : Nat) {s : Set Nat} (apart : a ∉ s) :
    Set.EqOn (write8 m a v) m s :=
  fun _ member => write8_apply_ne m v (fun same => apart (same ▸ member))

theorem read32_write32_ne (m : Mem) {a b : Nat} (v : Nat) (apart : b + 4 ≤ a ∨ a + 4 ≤ b) :
    read32 (write32 m a v) b = read32 m b := by
  apply read32_congr
  apply write32_eqOn
  rintro x ⟨lower, upper⟩
  omega

theorem read32_write8_ne (m : Mem) {a b : Nat} (v : Nat) (apart : a < b ∨ b + 4 ≤ a) :
    read32 (write8 m a v) b = read32 m b := by
  apply read32_congr
  apply write8_eqOn
  rintro ⟨lower, upper⟩
  omega

theorem read8_write32_ne (m : Mem) {a b : Nat} (v : Nat) (apart : b < a ∨ a + 4 ≤ b) :
    read8 (write32 m a v) b = read8 m b := by
  apply read8_congr
  simp only [write32]
  rw [if_neg (by omega)]

@[simp] theorem read8_write8 (m : Mem) (a v : Nat) : read8 (write8 m a v) a = v % 256 := by
  simp [read8, write8]

theorem read8_write8_ne (m : Mem) {a b : Nat} (v : Nat) (apart : b ≠ a) :
    read8 (write8 m a v) b = read8 m b := by
  simp [read8, write8, apart]

end ByteMemory
