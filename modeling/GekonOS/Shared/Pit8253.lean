set_option autoImplicit false

namespace Pit8253

structure Pit where
  -- which bytes of a count are written: 1 the low one, 2 the high one, 3 both
  access : Nat
  mode : Nat
  bcd : Bool
  -- the low byte, while the high one is still to come
  low : Option Nat
  reload : Nat
  -- clocks to the next interrupt; without a count there are none
  left : Nat

namespace Pit

-- four decimal digits
def decimal (count : Nat) : Nat :=
  count / 4096 * 1000 + count / 256 % 16 * 100 + count / 16 % 16 * 10 + count % 16

-- a count of 0 is the greatest one
def load (count : Nat) (p : Pit) : Pit :=
  let reload := if p.bcd then (if count = 0 then 10000 else decimal count)
    else if count = 0 then 65536 else count
  { p with low := none, reload := reload, left := if p.left = 0 then reload else p.left }

/-- A write of `data` to a port. -/
def write (port data : Nat) (p : Pit) : Pit :=
  if port = 0x43 then
    if data / 64 = 0 ∧ data / 16 % 4 ≠ 0 then
      { p with access := data / 16 % 4, mode := data / 2 % 8, bcd := decide (data % 2 = 1),
               low := none, left := 0 }
    else p
  else if port = 0x40 then
    match p.access, p.low with
    | 1, _ => p.load data
    | 2, _ => p.load (256 * data)
    | 3, none => { p with low := some data }
    | 3, some low => p.load (256 * data + low)
    | _, _ => p
  else p

-- modes 2 and 3, which ignore the highest bit
def periodic (p : Pit) : Bool := decide (p.mode / 2 % 2 = 1)

/-- One clock, and whether it raises the interrupt. -/
def clock (p : Pit) : Bool × Pit :=
  if p.left = 0 then (false, p)
  else if p.left = 1 then (true, { p with left := if p.periodic then p.reload else 0 })
  else (false, { p with left := p.left - 1 })

/-- The channel counts down from `reload` over and over. -/
structure Counting (reload : Nat) (p : Pit) : Prop where
  periodic : p.periodic = true
  reload_eq : p.reload = reload
  positive : 0 < p.left
  upper : p.left ≤ reload

-- how far into its period the channel is
def phase (p : Pit) : Nat := p.reload - p.left

variable {p : Pit} {reload : Nat}

theorem Counting.clock (counting : Counting reload p) :
    Counting reload p.clock.2 ∧
      p.phase + 1 = p.clock.2.phase + (if p.clock.1 then reload else 0) := by
  obtain ⟨periodic, same, positive, upper⟩ := counting
  unfold Pit.clock
  rw [if_neg (by omega)]
  by_cases last : p.left = 1
  · rw [if_pos last, if_pos periodic]
    refine ⟨⟨periodic, same, ?_, ?_⟩, ?_⟩
    · simp only
      omega
    · simp only
      omega
    · simp only [phase, if_true]
      omega
  · rw [if_neg last]
    refine ⟨⟨periodic, same, ?_, ?_⟩, ?_⟩
    · simp only
      omega
    · simp only
      omega
    · simp only [phase, Bool.false_eq_true, if_false]
      omega

theorem Counting.phase_lt (counting : Counting reload p) : p.phase < reload := by
  obtain ⟨-, same, positive, upper⟩ := counting
  unfold phase
  omega

end Pit

end Pit8253
