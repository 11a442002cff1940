import Mathlib

set_option autoImplicit false

/-!
# A pair of 8259 interrupt controllers

In fully nested mode with edge triggered inputs. The second chip is wired to input 2 of the first.
-/

namespace Pic8259

-- what the chip expects at its data port
inductive Stage
  | ready | icw2 | icw3 | icw4
deriving DecidableEq

structure Chip where
  irr : BitVec 8
  isr : BitVec 8
  imr : BitVec 8
  base : BitVec 8
  cascade : BitVec 8
  stage : Stage
  single : Bool
  needsIcw4 : Bool
  mode86 : Bool
  autoEoi : Bool
deriving DecidableEq

-- input 0 goes first
def highest (v : BitVec 8) : Option Nat := (List.range 8).find? fun i => v.getLsbD i

def setBit (v : BitVec 8) (i : Nat) : BitVec 8 := v ||| BitVec.twoPow 8 i

def clearBit (v : BitVec 8) (i : Nat) : BitVec 8 := v &&& ~~~BitVec.twoPow 8 i

namespace Chip

variable (c : Chip)

/-- The input that the chip asks for, unless one that is as important is in service. -/
def request : Option Nat :=
  (highest (c.irr &&& ~~~c.imr)).filter fun i =>
    (List.range (i + 1)).all fun j => !c.isr.getLsbD j

def raise (i : Nat) : Chip := { c with irr := setBit c.irr i }

def acknowledge (i : Nat) : Chip :=
  { c with irr := clearBit c.irr i, isr := if c.autoEoi then c.isr else setBit c.isr i }

def vector (i : Nat) : Nat := c.base.toNat / 8 * 8 + i

def writeCommand (v : BitVec 8) : Chip :=
  -- ICW1
  if v.getLsbD 4 then
    { c with
      irr := 0, isr := 0, imr := 0, stage := .icw2
      single := v.getLsbD 1, needsIcw4 := v.getLsbD 0, mode86 := false, autoEoi := false }
  -- OCW3 selects what is read
  else if v.getLsbD 3 then c
  -- OCW2, but for the rotation of the priorities
  else if v.extractLsb' 5 3 = 1 then
    { c with isr := (highest c.isr).elim c.isr (clearBit c.isr) }
  else if v.extractLsb' 5 3 = 3 then { c with isr := clearBit c.isr (v.toNat % 8) }
  else c

def writeData (v : BitVec 8) : Chip :=
  let last : Stage := if c.needsIcw4 then .icw4 else .ready
  match c.stage with
  | .ready => { c with imr := v }
  | .icw2 => { c with base := v, stage := if c.single then last else .icw3 }
  | .icw3 => { c with cascade := v, stage := last }
  | .icw4 => { c with mode86 := v.getLsbD 0, autoEoi := v.getLsbD 1, stage := .ready }

end Chip

structure Pair where
  master : Chip
  slave : Chip
deriving DecidableEq

namespace Pair

variable (p : Pair)

-- a request of the slave that was not there in `p` is latched by the master
def edge (q : Pair) : Pair :=
  if q.slave.request.isSome ∧ ¬ p.slave.request.isSome then { q with master := q.master.raise 2 }
  else q

/-- A device raises its line; those from 8 on go to the slave. -/
def raise (line : Nat) : Pair :=
  if line < 8 then { p with master := p.master.raise line }
  else p.edge { p with slave := p.slave.raise (line - 8) }

def write (port data : Nat) : Pair :=
  let v := BitVec.ofNat 8 data
  if port = 0x20 then p.edge { p with master := p.master.writeCommand v }
  else if port = 0x21 then p.edge { p with master := p.master.writeData v }
  else if port = 0xA0 then p.edge { p with slave := p.slave.writeCommand v }
  else if port = 0xA1 then p.edge { p with slave := p.slave.writeData v }
  else p

/-- The processor asks for the vector of the request that the master makes. -/
def acknowledge : Option (Nat × Pair) := do
  guard (p.master.mode86 ∧ p.slave.mode86)
  let i ← p.master.request
  let master := p.master.acknowledge i
  if p.master.cascade.getLsbD i then
    guard (p.slave.cascade.toNat % 8 = i)
    match p.slave.request with
    | some j =>
      pure (p.slave.vector j, p.edge { master := master, slave := p.slave.acknowledge j })
    -- a spurious request
    | none => pure (p.slave.vector 7, p.edge { p with master := master })
  else pure (p.master.vector i, p.edge { p with master := master })

end Pair

variable {v : BitVec 8} {i j : Nat} {c : Chip} {p q : Pair}

theorem getLsbD_setBit (within : i < 8) :
    (setBit v i).getLsbD j = (v.getLsbD j || decide (j = i)) := by
  rw [setBit, BitVec.getLsbD_or, BitVec.getLsbD_twoPow]
  grind

theorem getLsbD_clearBit (within : i < 8) :
    (clearBit v i).getLsbD j = (v.getLsbD j && decide (j ≠ i)) := by
  rw [clearBit, BitVec.getLsbD_and, BitVec.getLsbD_not, BitVec.getLsbD_twoPow]
  by_cases small : j < 8
  · grind
  · simp [BitVec.getLsbD_of_ge v j (by omega)]

theorem highest_eq_some : highest v = some i ↔
    v.getLsbD i = true ∧ ∀ j < i, v.getLsbD j = false := by
  rw [highest, List.find?_range_eq_some]
  constructor
  · rintro ⟨present, -, first⟩
    exact ⟨present, by simpa using first⟩
  · rintro ⟨present, first⟩
    exact ⟨present, List.mem_range.mpr (BitVec.lt_of_getLsbD present), by simpa using first⟩

-- the only input in service
theorem clearBit_twoPow (i : Nat) : clearBit (BitVec.twoPow 8 i) i = 0 := by
  rw [clearBit, BitVec.and_not_self]

theorem highest_twoPow (within : i < 8) : highest (BitVec.twoPow 8 i) = some i := by
  rw [highest_eq_some]
  simp only [BitVec.getLsbD_twoPow]
  exact ⟨by simp [within], fun j less => by simp; omega⟩

namespace Chip

theorem request_eq_some : c.request = some i ↔
    (c.irr.getLsbD i = true ∧ c.imr.getLsbD i = false) ∧
      (∀ j < i, c.irr.getLsbD j = true → c.imr.getLsbD j = true) ∧
      ∀ j ≤ i, c.isr.getLsbD j = false := by
  have pending (k : Nat) : (c.irr &&& ~~~c.imr).getLsbD k = true ↔
      c.irr.getLsbD k = true ∧ c.imr.getLsbD k = false := by
    rw [BitVec.getLsbD_and, BitVec.getLsbD_not]
    have small := @BitVec.lt_of_getLsbD 8 c.irr k
    grind
  rw [request, Option.filter_eq_some_iff, highest_eq_some, pending]
  simp only [← Bool.not_eq_true, pending, List.all_eq_true, List.mem_range]
  constructor
  · rintro ⟨⟨wanted, first⟩, free⟩
    refine ⟨wanted, fun j less raised => ?_, fun j le => by simpa using free j (by omega)⟩
    by_contra masked
    exact first j less ⟨raised, masked⟩
  · rintro ⟨wanted, first, free⟩
    refine ⟨⟨wanted, fun j less other => ?_⟩, fun j le => by simpa using free j (by omega)⟩
    exact other.2 (first j less other.1)

theorem request_isSome : c.request.isSome ↔
    ∃ i, c.irr.getLsbD i = true ∧ c.imr.getLsbD i = false ∧ ∀ j ≤ i, c.isr.getLsbD j = false := by
  rw [Option.isSome_iff_exists]
  constructor
  · rintro ⟨i, asks⟩
    obtain ⟨wanted, -, free⟩ := request_eq_some.mp asks
    exact ⟨i, wanted.1, wanted.2, free⟩
  · rintro ⟨i, raised, unmasked, free⟩
    have wanted : ∃ k, c.irr.getLsbD k = true ∧ c.imr.getLsbD k = false := ⟨i, raised, unmasked⟩
    have least : Nat.find wanted ≤ i := Nat.find_min' wanted ⟨raised, unmasked⟩
    refine ⟨Nat.find wanted, request_eq_some.mpr ⟨Nat.find_spec wanted, ?_, ?_⟩⟩
    · intro j less raised
      by_contra masked
      exact Nat.find_min wanted less ⟨raised, by simpa using masked⟩
    · exact fun j le => free j (Nat.le_trans le least)

theorem writeData_irr (c : Chip) (v : BitVec 8) : (c.writeData v).irr = c.irr := by
  unfold writeData
  cases c.stage <;> rfl

theorem request_zero (irr : c.irr = 0) : c.request = none := by
  rw [Option.eq_none_iff_forall_ne_some]
  intro i asks
  have raised := (request_eq_some.mp asks).1.1
  rw [irr] at raised
  simp at raised

end Chip

namespace Pair

theorem edge_quiet (quiet : q.slave.request = none) : p.edge q = q := by
  rw [edge, quiet]
  simp

theorem edge_asking (asking : p.slave.request.isSome) : p.edge q = q := by
  rw [edge, if_neg]
  simp [asking]

theorem edge_rising (quiet : p.slave.request = none) (asking : q.slave.request.isSome) :
    p.edge q = { q with master := q.master.raise 2 } := by
  rw [edge, if_pos ⟨asking, by simp [quiet]⟩]

theorem edge_master (p : Pair) (c : Chip) :
    p.edge { p with master := c } = { p with master := c } := by
  by_cases asking : p.slave.request.isSome
  · exact edge_asking asking
  · exact edge_quiet (by simpa using asking)

theorem acknowledge_requests {answer : Nat × Pair} (accepted : p.acknowledge = some answer) :
    ∃ i, p.master.request = some i := by
  rw [← Option.isSome_iff_exists]
  by_contra none
  rw [Option.not_isSome_iff_eq_none] at none
  rw [acknowledge, none] at accepted
  simp at accepted

theorem write_master (p : Pair) (data : Nat) :
    p.write 0x20 data = { p with master := p.master.writeCommand (BitVec.ofNat 8 data) } ∧
      p.write 0x21 data = { p with master := p.master.writeData (BitVec.ofNat 8 data) } :=
  ⟨edge_master _ _, edge_master _ _⟩

theorem write_slave (p : Pair) (data : Nat) :
    p.write 0xA0 data = p.edge { p with slave := p.slave.writeCommand (BitVec.ofNat 8 data) } ∧
      p.write 0xA1 data = p.edge { p with slave := p.slave.writeData (BitVec.ofNat 8 data) } :=
  ⟨rfl, rfl⟩

end Pair

end Pic8259
