import GekonOS.Interrupts.Dispatch
import GekonOS.Kernel.Timer
import GekonOS.Shared.Pit8253

set_option autoImplicit false

namespace GekonOS.Ticks

open Pit8253

variable {H : Type}

/-- The timer, and what the handlers act on. -/
structure System (σ : Type) where
  pit : Pit
  state : σ

variable {σ : Type}

-- the handlers that an interrupt calls, one after the other
def serve (act : H → σ → σ) (intNo : Nat) (handlers : InterruptHandlers H) (s : σ) : σ :=
  (interrupt intNo handlers).effects.foldl (fun s effect =>
    match effect with
    | .call handler => act handler s
    | _ => s) s

/-- A clock of the timer; the interrupt that it raises is served before the next one. -/
def clock (act : H → σ → σ) (handlers : InterruptHandlers H) (s : System σ) : System σ :=
  { pit := s.pit.clock.2
    state := if s.pit.clock.1 then serve act irq0.toNat handlers s.state else s.state }

def clocks (act : H → σ → σ) (handlers : InterruptHandlers H) : Nat → System σ → System σ
  | 0, s => s
  | n + 1, s => clocks act handlers n (clock act handlers s)

def programmed (writes : List (UInt16 × UInt8)) (p : Pit) : Pit :=
  writes.foldl (fun p w => p.write w.1.toNat w.2.toNat) p

-- the count that the two bytes make
def count (frequency : UInt32) : Nat := 1193180 / frequency.toNat % 65536

def period (frequency : UInt32) : Nat := if count frequency = 0 then 65536 else count frequency

theorem low_byte (divisor : UInt32) : (divisor &&& 0xFF).toUInt8.toNat = divisor.toNat % 256 := by
  rw [UInt32.toNat_toUInt8, UInt32.toNat_and]
  have mask := Nat.and_two_pow_sub_one_eq_mod divisor.toNat 8
  change (divisor.toNat &&& 255) % 256 = _
  rw [show 255 = 2 ^ 8 - 1 by decide, mask]
  omega

theorem high_byte (divisor : UInt32) :
    (divisor >>> 8 &&& 0xFF).toUInt8.toNat = divisor.toNat / 256 % 256 := by
  rw [low_byte, UInt32.toNat_shiftRight]
  change divisor.toNat >>> 8 % 256 = _
  rw [Nat.shiftRight_eq_div_pow]

-- the command and the two bytes of the count
theorem programmed_eq (low high : UInt8) (p : Pit) :
    programmed [(0x43, 0x36), (0x40, low), (0x40, high)] p =
      { p with access := 3, mode := 3, bcd := false, low := none,
               reload := if 256 * high.toNat + low.toNat = 0 then 65536
                 else 256 * high.toNat + low.toNat,
               left := if 256 * high.toNat + low.toNat = 0 then 65536
                 else 256 * high.toNat + low.toNat } := rfl

theorem timerInit_eq {frequency : UInt32} (positive : frequency ≠ 0) (timer : H)
    (handlers : InterruptHandlers H) (p : Pit) :
    ∃ handlers' writes, timerInit timer frequency handlers = some (handlers', writes) ∧
      handlers' irq0.toNat = some timer ∧
      (programmed writes p).Counting (period frequency) ∧ (programmed writes p).phase = 0 := by
  refine ⟨_, _, if_neg positive, Function.update_self .., ?_⟩
  have divided : (1193180 / frequency).toNat = 1193180 / frequency.toNat := UInt32.toNat_div ..
  have both : 256 * ((1193180 / frequency) >>> 8 &&& 0xFF).toUInt8.toNat +
      ((1193180 / frequency) &&& 0xFF).toUInt8.toNat = count frequency := by
    rw [high_byte, low_byte, divided, count]
    omega
  rw [programmed_eq, both]
  have small : 0 < period frequency := by
    unfold period
    split <;> omega
  have mode3 : (3 : Nat) / 2 % 2 = 1 := by decide
  exact ⟨⟨decide_eq_true mode3, rfl, small, Nat.le_refl _⟩, Nat.sub_self _⟩

theorem serve_timer {act : H → UInt64 → UInt64} {timer : H} {handlers : InterruptHandlers H}
    (registered : handlers irq0.toNat = some timer) (acts : act timer = timerCallback)
    (ticks : UInt64) : serve act irq0.toNat handlers ticks = ticks + 1 := by
  have handlers32 : handlers 32 = some timer := registered
  simp [serve, interrupt, irqHandler, irq0, InterruptTrace.andThen, outportb, callHandler,
    handlers32, acts, timerCallback]

theorem clocks_ticks {act : H → UInt64 → UInt64} {timer : H} {handlers : InterruptHandlers H}
    (registered : handlers irq0.toNat = some timer) (acts : act timer = timerCallback)
    {reload : Nat} (n : Nat) (s : System UInt64) (counting : s.pit.Counting reload) :
    (clocks act handlers n s).state = s.state + UInt64.ofNat ((s.pit.phase + n) / reload) := by
  induction n generalizing s with
  | zero =>
    rw [clocks, Nat.add_zero, Nat.div_eq_of_lt counting.phase_lt]
    simp
  | succ n ih =>
    obtain ⟨next, phase⟩ := counting.clock
    have positive : 0 < reload := Nat.lt_of_le_of_lt (Nat.zero_le _) counting.phase_lt
    rw [clocks, ih _ next]
    change (if s.pit.clock.1 then serve act irq0.toNat handlers s.state else s.state) +
      UInt64.ofNat ((s.pit.clock.2.phase + n) / reload) = _
    cases pulse : s.pit.clock.1 with
    | true =>
      rw [pulse, if_pos rfl] at phase
      have later : s.pit.phase + (n + 1) = s.pit.clock.2.phase + n + reload := by omega
      rw [if_pos rfl, serve_timer registered acts, later, Nat.add_div_right _ positive,
        UInt64.ofNat_add, UInt64.add_assoc, UInt64.add_comm 1]
      rfl
    | false =>
      rw [pulse, if_neg Bool.false_ne_true] at phase
      have later : s.pit.phase + (n + 1) = s.pit.clock.2.phase + n := by omega
      rw [if_neg Bool.false_ne_true, later]

/--
Whatever the timer was doing before, there is one tick for each period of the frequency that was
asked for if and only if the divisor fits into its sixteen bits. The mode has no period of one
clock.
-/
theorem ticks_keep_time (act : H → UInt64 → UInt64) (timer : H) (acts : act timer = timerCallback)
    (frequency : UInt32) (positive : frequency ≠ 0) (legal : 2 * frequency.toNat ≤ 1193180)
    (handlers : InterruptHandlers H) (p : Pit) (ticks : UInt64) :
    ∃ handlers' writes, timerInit timer frequency handlers = some (handlers', writes) ∧
      ((∀ n, (clocks act handlers' n { pit := programmed writes p, state := ticks }).state =
          ticks + UInt64.ofNat (n / (1193180 / frequency.toNat))) ↔ 19 ≤ frequency.toNat) := by
  obtain ⟨handlers', writes, result, registered, counting, phase⟩ :=
    timerInit_eq positive timer handlers p
  refine ⟨handlers', writes, result, ?_⟩
  have runs (n : Nat) :
      (clocks act handlers' n { pit := programmed writes p, state := ticks }).state =
        ticks + UInt64.ofNat (n / period frequency) := by
    rw [clocks_ticks registered acts n _ counting]
    simp only [phase, Nat.zero_add]
  have nonzero : 0 < frequency.toNat := by
    by_contra none
    exact positive (UInt32.toNat_inj.mp (Nat.eq_zero_of_not_pos none))
  constructor
  · intro keeps
    by_contra low
    have long : 66287 ≤ 1193180 / frequency.toNat :=
      (Nat.le_div_iff_mul_le nonzero).mpr (by omega)
    have short : 0 < period frequency ∧ period frequency ≤ 65536 := by
      unfold period count
      split <;> omega
    have early := keeps (period frequency)
    rw [runs, Nat.div_self short.1, Nat.div_eq_of_lt (by omega)] at early
    exact absurd ((UInt64.add_right_inj ticks).mp early) (by decide)
  · intro fits n
    have upper : 1193180 / frequency.toNat ≤ 1193180 / 19 := Nat.div_le_div_left fits (by decide)
    have lower : 2 ≤ 1193180 / frequency.toNat := (Nat.le_div_iff_mul_le nonzero).mpr legal
    have same : period frequency = 1193180 / frequency.toNat := by
      unfold period count
      split <;> omega
    rw [runs, same]

-- `kmain` asks for 50
theorem ticks_keep_time_50 : ∃ handlers' writes,
    timerInit () 50 InterruptHandlers.initial = some (handlers', writes) ∧
      ((∀ n, (clocks (fun _ => timerCallback) handlers' n
        { pit := programmed writes
            { access := 0, mode := 0, bcd := false, low := none, reload := 0, left := 0 },
          state := 0 }).state = 0 + UInt64.ofNat (n / (1193180 / 50))) ↔ 19 ≤ 50) :=
  ticks_keep_time (fun _ => timerCallback) () rfl 50 (by decide) (by decide)
    InterruptHandlers.initial _ 0

end GekonOS.Ticks
