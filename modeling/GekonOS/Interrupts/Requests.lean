import GekonOS.Interrupts.Dispatch
import GekonOS.Kernel.Pic
import GekonOS.Shared.Pic8259
import GekonOS.Shared.Transition
import Mathlib.Data.Set.Insert

set_option autoImplicit false

namespace GekonOS.Requests

open Pic8259 Transition

variable {H : Type}

-- line 2 is that of the second controller
def Line (n : Nat) : Prop := n < 16 ∧ n ≠ 2

inductive Label where
  | raise (line : Nat)
  | accept (vector : Nat)
  -- a step of the handler that runs
  | perform

/-! ## What the requests of devices come to -/

-- the lower goes first
def rank (line : Nat) : Nat := if line < 2 then line else if line < 8 then line + 7 else line - 6

/-- A set of requests, the most important of which is accepted under its own vector. -/
inductive Served : Set Nat → Label → Set Nat → Prop
  | raise {pending : Set Nat} {line : Nat} : Line line →
      Served pending (.raise line) (insert line pending)
  | accept {pending : Set Nat} {line : Nat} : line ∈ pending →
      (∀ other ∈ pending, rank line ≤ rank other) →
      Served pending (.accept (32 + line)) (pending \ {line})
  | perform {pending : Set Nat} : Served pending .perform pending

/-! ## The controllers and the handlers -/

/-- The controllers, and what the handler that runs has still to do. -/
structure State (H : Type) where
  pics : Pair
  remaining : List (InterruptEffect H)

/--
Handlers run with interrupts off, so the processor accepts a request only between them. The handlers
that are registered may differ from one request to the next.
-/
inductive Step : State H → Label → State H → Prop
  | raise {s : State H} {line : Nat} : Line line →
      Step s (.raise line) { s with pics := s.pics.raise line }
  | accept {pics pics' : Pair} {vector : Nat} (handlers : InterruptHandlers H) :
      pics.acknowledge = some (vector, pics') →
      Step { pics := pics, remaining := [] } (.accept vector)
        { pics := pics', remaining := (interrupt vector handlers).effects }
  | write {pics : Pair} {port data : Nat} {rest : List (InterruptEffect H)} :
      Step { pics := pics, remaining := .outportb port data :: rest } .perform
        { pics := pics.write port data, remaining := rest }
  -- the registered handlers do not touch the controllers
  | call {pics : Pair} {handler : H} {rest : List (InterruptEffect H)} :
      Step { pics := pics, remaining := .call handler :: rest } .perform
        { pics := pics, remaining := rest }

-- after `irq_remap`
def remapped (p : Pair) : State H :=
  { pics := irqRemap.foldl (fun p w => p.write w.1 w.2) p, remaining := [] }

/-! ## What `irq_remap` leaves -/

-- the chips as they are after the initialisation, but for their requests
def mode (base cascade : BitVec 8) (irr isr : BitVec 8) : Chip :=
  { irr := irr, isr := isr, imr := 0, base := base, cascade := cascade, stage := .ready
    single := false, needsIcw4 := true, mode86 := true, autoEoi := false }

-- the chip while it is initialised
def starting (c : Chip) : Chip :=
  { c with
    irr := 0, isr := 0, imr := 0, stage := .icw2
    single := false, needsIcw4 := true, mode86 := false, autoEoi := false }

theorem irqRemap_mode (p : Pair) : (remapped p : State H).pics =
    { master := mode 0x20 0x04 0 0, slave := mode 0x28 0x02 0 0 } := by
  have first (c : Chip) : c.writeCommand (BitVec.ofNat 8 icw1) = starting c := rfl
  have none (c : Chip) : (starting c).irr = 0 := rfl
  have command (q : Pair) : q.write pic2Ctrl icw1 = { q with slave := starting q.slave } := by
    rw [pic2Ctrl, (Pair.write_slave _ _).1, first]
    exact Pair.edge_quiet (Chip.request_zero rfl)
  have data (q : Pair) (d : Nat) (irr : q.slave.irr = 0) :
      q.write pic2Data d = { q with slave := q.slave.writeData (BitVec.ofNat 8 d) } := by
    rw [pic2Data, (Pair.write_slave _ _).2]
    exact Pair.edge_quiet (Chip.request_zero ((Chip.writeData_irr _ _).trans irr))
  simp only [remapped, irqRemap, List.foldl_cons, List.foldl_nil, pic1Ctrl, pic1Data,
    (Pair.write_master _ _).1, (Pair.write_master _ _).2, command, first, data, none,
    Chip.writeData_irr]
  rfl

/-! ## The controllers in use -/

section Controllers

variable {base cascade irr isr irr₁ isr₁ irr₂ isr₂ : BitVec 8} {i j : Nat} {pending : Set Nat}

def chips (irr isr irr₁ isr₁ : BitVec 8) : Pair :=
  { master := mode 0x20 0x04 irr isr, slave := mode 0x28 0x02 irr₁ isr₁ }

-- a chip makes a request
def Asks (irr isr : BitVec 8) : Prop :=
  ∃ i, irr.getLsbD i = true ∧ ∀ j ≤ i, isr.getLsbD j = false

theorem mode_request : (mode base cascade irr isr).request = some i ↔
    irr.getLsbD i = true ∧ (∀ j < i, irr.getLsbD j = false) ∧ ∀ j ≤ i, isr.getLsbD j = false := by
  rw [Chip.request_eq_some]
  simp [mode]

theorem first_request (asks : (mode base cascade irr isr).request = some i)
    (set : irr.getLsbD j = true) : i ≤ j := by
  obtain ⟨-, first, -⟩ := mode_request.mp asks
  by_contra less
  rw [first j (by omega)] at set
  cases set

theorem mode_asks : (mode base cascade irr isr).request.isSome ↔ Asks irr isr := by
  rw [Chip.request_isSome]
  simp [mode, Asks]

theorem mode_silent : (mode base cascade irr isr).request = none ↔ ¬ Asks irr isr := by
  have asks : (mode base cascade irr isr).request.isSome ↔ Asks irr isr := mode_asks
  rw [← asks]
  simp

theorem mode_eoi (within : i < 8) :
    (mode base cascade irr (BitVec.twoPow 8 i)).writeCommand (BitVec.ofNat 8 0x20) =
      mode base cascade irr 0 := by
  have cleared : (highest (BitVec.twoPow 8 i)).elim (BitVec.twoPow 8 i)
      (clearBit (BitVec.twoPow 8 i)) = 0 := by
    rw [highest_twoPow within]
    exact clearBit_twoPow i
  change mode base cascade irr ((highest (BitVec.twoPow 8 i)).elim (BitVec.twoPow 8 i)
    (clearBit (BitVec.twoPow 8 i))) = _
  rw [cleared]

theorem mode_acknowledge : (mode base cascade irr 0).acknowledge i =
    mode base cascade (clearBit irr i) (BitVec.twoPow 8 i) := by
  change mode base cascade (clearBit irr i) (setBit 0 i) = _
  rw [setBit]
  simp

theorem Asks.raise (asks : Asks irr isr) (within : j < 8) : Asks (setBit irr j) isr := by
  obtain ⟨i, raised, free⟩ := asks
  refine ⟨i, ?_, free⟩
  rw [getLsbD_setBit within, raised]
  rfl

theorem asks_idle : Asks irr 0 ↔ ∃ i, irr.getLsbD i = true := by
  simp [Asks]

-- what the master latches of the slave
theorem edge_chips {p : Pair} (irr isr : BitVec 8) (old : p.slave = mode 0x28 0x02 irr₂ isr₂)
    (silent : ¬ Asks irr₁ isr₁ → irr.getLsbD 2 = false)
    (latched : Asks irr₂ isr₂ → Asks irr₁ isr₁ → irr.getLsbD 2 = true) :
    ∃ irr', p.edge (chips irr isr irr₁ isr₁) = chips irr' isr irr₁ isr₁ ∧
      (∀ i, i ≠ 2 → irr'.getLsbD i = irr.getLsbD i) ∧
      (irr'.getLsbD 2 = true ↔ Asks irr₁ isr₁) := by
  by_cases asks : Asks irr₁ isr₁
  · by_cases before : Asks irr₂ isr₂
    · refine ⟨irr, Pair.edge_asking ?_, fun _ _ => rfl, ?_⟩
      · rw [old]
        exact mode_asks.mpr before
      · simp only [asks, iff_true]
        exact latched before asks
    · refine ⟨setBit irr 2, Pair.edge_rising ?_ (mode_asks.mpr asks), fun i other => ?_, ?_⟩
      · rw [old]
        exact mode_silent.mpr before
      · rw [getLsbD_setBit (by omega)]
        simp [other]
      · rw [getLsbD_setBit (by omega)]
        simp [asks]
  · refine ⟨irr, Pair.edge_quiet (mode_silent.mpr asks), fun _ _ => rfl, ?_⟩
    rw [silent asks]
    simp [asks]

/-- The requests that the registers of both chips stand for. -/
structure Matches (irr irr₁ isr₁ : BitVec 8) (pending : Set Nat) : Prop where
  master : ∀ i < 8, i ≠ 2 → (irr.getLsbD i = true ↔ i ∈ pending)
  slave : ∀ j < 8, irr₁.getLsbD j = true ↔ 8 + j ∈ pending
  latch : irr.getLsbD 2 = true ↔ Asks irr₁ isr₁
  lines : ∀ n ∈ pending, Line n

/-- What a handler has left to do, and the inputs that are in service until it has done so. -/
inductive Serving : List (InterruptEffect H) → BitVec 8 → BitVec 8 → Prop
  | done (calls : List H) : Serving (calls.map .call) 0 0
  | master {i : Nat} (calls : List H) : i < 8 →
      Serving (.outportb 0x20 0x20 :: calls.map .call) (BitVec.twoPow 8 i) 0
  | slave {j : Nat} (calls : List H) : j < 8 →
      Serving (.outportb 0xA0 0x20 :: .outportb 0x20 0x20 :: calls.map .call) (BitVec.twoPow 8 2)
        (BitVec.twoPow 8 j)

def Holds (s : State H) (pending : Set Nat) : Prop :=
  ∃ irr isr irr₁ isr₁, s.pics = chips irr isr irr₁ isr₁ ∧ Serving s.remaining isr isr₁ ∧
    Matches irr irr₁ isr₁ pending

theorem Matches.raise (isr : BitVec 8) (matching : Matches irr irr₁ isr₁ pending) {line : Nat} (is : Line line) :
    ∃ irr' irr₁', (chips irr isr irr₁ isr₁).raise line = chips irr' isr irr₁' isr₁ ∧
      Matches irr' irr₁' isr₁ (insert line pending) := by
  have lines : ∀ n ∈ insert line pending, Line n := by
    rintro n (rfl | member)
    · exact is
    · exact matching.lines n member
  by_cases lower : line < 8
  · refine ⟨setBit irr line, irr₁, ?_, ?_, ?_, ?_, lines⟩
    · rw [Pair.raise, if_pos lower]
      rfl
    · intro i within other
      rw [getLsbD_setBit lower]
      simp [matching.master i within other, or_comm]
    · intro j within
      have upper : 8 + j ≠ line := by omega
      rw [matching.slave j within]
      simp [upper]
    · rw [getLsbD_setBit lower, ← matching.latch]
      simp [is.2.symm]
  · have within : line - 8 < 8 := by
      have := is.1
      omega
    have silent : ¬ Asks (setBit irr₁ (line - 8)) isr₁ → irr.getLsbD 2 = false := by
      intro quiet
      rw [← Bool.not_eq_true, matching.latch]
      exact fun asks => quiet (asks.raise within)
    obtain ⟨irr', edge, same, latch⟩ := edge_chips (p := chips irr isr irr₁ isr₁) _ isr rfl silent
      (fun asks _ => matching.latch.mpr asks)
    refine ⟨irr', setBit irr₁ (line - 8), ?_, ?_, ?_, latch, lines⟩
    · rw [Pair.raise, if_neg lower]
      exact edge
    · intro i below other
      have differs : i ≠ line := by omega
      rw [same i other, matching.master i below other]
      simp [differs]
    · intro j below
      have moved : j = line - 8 ↔ 8 + j = line := by omega
      rw [getLsbD_setBit within]
      simp [matching.slave j below, moved, or_comm]

-- the line of a request of the master, and that of a request of the slave
theorem acknowledge_line (asks : (mode 0x20 0x04 irr 0).request = some i) (other : i ≠ 2) :
    (chips irr 0 irr₁ isr₁).acknowledge = some (32 + i, (chips irr 0 irr₁ isr₁).edge
      (chips (clearBit irr i) (BitVec.twoPow 8 i) irr₁ isr₁)) := by
  have wired : ∀ k < 8, k ≠ 2 → (0x04 : BitVec 8).getLsbD k = false := by decide
  have direct := wired i (BitVec.lt_of_getLsbD (mode_request.mp asks).1) other
  have request : (chips irr 0 irr₁ isr₁).master.request = some i := asks
  have cascade : (chips irr 0 irr₁ isr₁).master.cascade.getLsbD i = false := direct
  have mode86 : (guard ((chips irr 0 irr₁ isr₁).master.mode86 = true ∧
      (chips irr 0 irr₁ isr₁).slave.mode86 = true) : Option Unit) = some () := if_pos ⟨rfl, rfl⟩
  have whole : (0x20 : BitVec 8).toNat / 8 * 8 = 32 := by decide
  have number : (chips irr 0 irr₁ isr₁).master.vector i = 32 + i := by
    change (0x20 : BitVec 8).toNat / 8 * 8 + i = _
    rw [whole]
  have master : (chips irr 0 irr₁ isr₁).master.acknowledge i =
    mode 0x20 0x04 (clearBit irr i) (BitVec.twoPow 8 i) := mode_acknowledge
  rw [Pair.acknowledge, request, mode86]
  simp only [Option.bind_eq_bind, Option.bind_some, cascade, number, master]
  rfl

theorem acknowledge_slave (asks : (mode 0x20 0x04 irr 0).request = some 2)
    (asks' : (mode 0x28 0x02 irr₁ 0).request = some j) :
    (chips irr 0 irr₁ 0).acknowledge = some (32 + (8 + j), (chips irr 0 irr₁ 0).edge
      (chips (clearBit irr 2) (BitVec.twoPow 8 2) (clearBit irr₁ j) (BitVec.twoPow 8 j))) := by
  have request : (chips irr 0 irr₁ 0).master.request = some 2 := asks
  have request' : (chips irr 0 irr₁ 0).slave.request = some j := asks'
  have cascade : (chips irr 0 irr₁ 0).master.cascade.getLsbD 2 = true :=
    show (0x04 : BitVec 8).getLsbD 2 = true by decide
  have mode86 : (guard ((chips irr 0 irr₁ 0).master.mode86 = true ∧
      (chips irr 0 irr₁ 0).slave.mode86 = true) : Option Unit) = some () := if_pos ⟨rfl, rfl⟩
  have identity : (guard ((chips irr 0 irr₁ 0).slave.cascade.toNat % 8 = 2) : Option Unit) =
    some () := if_pos rfl
  have whole : (0x28 : BitVec 8).toNat / 8 * 8 = 40 := by decide
  have number : (chips irr 0 irr₁ 0).slave.vector j = 32 + (8 + j) := by
    change (0x28 : BitVec 8).toNat / 8 * 8 + j = _
    rw [whole]
    omega
  have master : (chips irr 0 irr₁ 0).master.acknowledge 2 =
    mode 0x20 0x04 (clearBit irr 2) (BitVec.twoPow 8 2) := mode_acknowledge
  have slave : (chips irr 0 irr₁ 0).slave.acknowledge j =
    mode 0x28 0x02 (clearBit irr₁ j) (BitVec.twoPow 8 j) := mode_acknowledge
  rw [Pair.acknowledge, request, mode86]
  simp only [Option.bind_eq_bind, Option.bind_some, cascade, identity, request', number, master,
    slave]
  rfl

-- nothing that waits is more important than what the master asks for
theorem Matches.least_master (matching : Matches irr irr₁ 0 pending)
    (asks : (mode 0x20 0x04 irr 0).request = some i) (direct : i ≠ 2) :
    i ∈ pending ∧ ∀ other ∈ pending, rank i ≤ rank other := by
  obtain ⟨raised, -, -⟩ := mode_request.mp asks
  have within := BitVec.lt_of_getLsbD raised
  refine ⟨(matching.master i within direct).mp raised, ?_⟩
  intro other among
  obtain ⟨small, line⟩ := matching.lines other among
  by_cases lower : other < 8
  · have le := first_request asks ((matching.master other lower line).mpr among)
    unfold rank
    grind
  · have set : irr₁.getLsbD (other - 8) = true :=
      (matching.slave (other - 8) (by omega)).mpr
        (by rwa [show 8 + (other - 8) = other by omega])
    have le := first_request asks (matching.latch.mpr (asks_idle.mpr ⟨_, set⟩))
    unfold rank
    grind

theorem Matches.least_slave (matching : Matches irr irr₁ 0 pending)
    (asks : (mode 0x20 0x04 irr 0).request = some 2)
    (asks' : (mode 0x28 0x02 irr₁ 0).request = some j) :
    8 + j ∈ pending ∧ ∀ other ∈ pending, rank (8 + j) ≤ rank other := by
  obtain ⟨raised, -, -⟩ := mode_request.mp asks'
  have within := BitVec.lt_of_getLsbD raised
  refine ⟨(matching.slave j within).mp raised, ?_⟩
  intro other among
  obtain ⟨small, line⟩ := matching.lines other among
  by_cases lower : other < 8
  · have le := first_request asks ((matching.master other lower line).mpr among)
    unfold rank
    grind
  · have set : irr₁.getLsbD (other - 8) = true :=
      (matching.slave (other - 8) (by omega)).mpr
        (by rwa [show 8 + (other - 8) = other by omega])
    have le := first_request asks' set
    unfold rank
    grind

theorem Matches.accept_master (matching : Matches irr irr₁ 0 pending)
    (asks : (mode 0x20 0x04 irr 0).request = some i) (direct : i ≠ 2) :
    ∃ irr', (chips irr 0 irr₁ 0).acknowledge =
        some (32 + i, chips irr' (BitVec.twoPow 8 i) irr₁ 0) ∧
      Matches irr' irr₁ 0 (pending \ {i}) := by
  have within := BitVec.lt_of_getLsbD (mode_request.mp asks).1
  have latched : (clearBit irr i).getLsbD 2 = irr.getLsbD 2 := by
    rw [getLsbD_clearBit within]
    simp [Ne.symm direct]
  obtain ⟨irr', edge, same, latch⟩ := edge_chips (p := chips irr 0 irr₁ 0)
    (clearBit irr i) (BitVec.twoPow 8 i) rfl
    (fun quiet => by
      rw [latched, ← Bool.not_eq_true, matching.latch]
      exact quiet)
    (fun asks _ => by rw [latched, matching.latch]; exact asks)
  refine ⟨irr', ?_, ?_⟩
  · rw [acknowledge_line asks direct, edge]
  · constructor
    case master =>
      intro k below other
      rw [same k other, getLsbD_clearBit within]
      simp [matching.master k below other]
    case slave =>
      intro k below
      have differs : 8 + k ≠ i := by omega
      rw [matching.slave k below]
      simp [differs]
    case latch => exact latch
    case lines => exact fun n among => matching.lines n among.1

theorem Matches.accept_slave (matching : Matches irr irr₁ 0 pending)
    (asks : (mode 0x20 0x04 irr 0).request = some 2)
    (asks' : (mode 0x28 0x02 irr₁ 0).request = some j) :
    ∃ irr', (chips irr 0 irr₁ 0).acknowledge = some (32 + (8 + j),
        chips irr' (BitVec.twoPow 8 2) (clearBit irr₁ j) (BitVec.twoPow 8 j)) ∧
      Matches irr' (clearBit irr₁ j) (BitVec.twoPow 8 j) (pending \ {8 + j}) := by
  have within := BitVec.lt_of_getLsbD (mode_request.mp asks).1
  have within' := BitVec.lt_of_getLsbD (mode_request.mp asks').1
  -- the slave has its request in service, so it asks for no other that is less important
  have blocked : ¬ Asks (clearBit irr₁ j) (BitVec.twoPow 8 j) := by
    rintro ⟨k, set, free⟩
    rw [getLsbD_clearBit within', Bool.and_eq_true, decide_eq_true_eq] at set
    have busy := free j (first_request asks' set.1)
    rw [BitVec.getLsbD_twoPow] at busy
    simp [within'] at busy
  have cleared : (clearBit irr 2).getLsbD 2 = false := by
    rw [getLsbD_clearBit within]
    simp
  obtain ⟨irr', edge, same, latch⟩ := edge_chips (p := chips irr 0 irr₁ 0)
    (clearBit irr 2) (BitVec.twoPow 8 2) rfl (fun _ => cleared) (fun _ asks => absurd asks blocked)
  refine ⟨irr', ?_, ?_⟩
  · rw [acknowledge_slave asks asks', edge]
  · constructor
    case master =>
      intro k below other
      have differs : k ≠ 8 + j := by omega
      rw [same k other, getLsbD_clearBit within]
      simp [matching.master k below other, other, differs]
    case slave =>
      intro k below
      rw [getLsbD_clearBit within']
      simp [matching.slave k below]
    case latch => exact latch
    case lines => exact fun n among => matching.lines n among.1

-- a request of the master is one of the most important line, if need be that of the slave
theorem Matches.accept (matching : Matches irr irr₁ 0 pending)
    (asks : (mode 0x20 0x04 irr 0).request = some i) :
    ∃ line ∈ pending, (∀ other ∈ pending, rank line ≤ rank other) ∧
      ∃ irr' isr irr₁' isr₁, (chips irr 0 irr₁ 0).acknowledge =
          some (32 + line, chips irr' isr irr₁' isr₁) ∧
        Matches irr' irr₁' isr₁ (pending \ {line}) ∧
        ∀ handlers : InterruptHandlers H,
          Serving (interrupt (32 + line) handlers).effects isr isr₁ := by
  have raised := (mode_request.mp asks).1
  have within := BitVec.lt_of_getLsbD raised
  by_cases slave : i = 2
  · subst slave
    have found : (mode 0x28 0x02 irr₁ 0).request.isSome := mode_asks.mpr (matching.latch.mp raised)
    obtain ⟨j, asks'⟩ := Option.isSome_iff_exists.mp found
    have within' := BitVec.lt_of_getLsbD (mode_request.mp asks').1
    obtain ⟨member, least⟩ := matching.least_slave asks asks'
    obtain ⟨irr', accepted, matching'⟩ := matching.accept_slave asks asks'
    refine ⟨8 + j, member, least, irr', _, _, _, accepted, matching', fun handlers => ?_⟩
    rw [interrupt, if_neg (by omega), Dispatch.irqHandler_correct, if_pos (by omega)]
    exact Serving.slave _ within'
  · obtain ⟨member, least⟩ := matching.least_master asks slave
    obtain ⟨irr', accepted, matching'⟩ := matching.accept_master asks slave
    refine ⟨i, member, least, irr', _, _, _, accepted, matching', fun handlers => ?_⟩
    rw [interrupt, if_neg (by omega), Dispatch.irqHandler_correct, if_neg (by omega)]
    exact Serving.master _ within

end Controllers

/-! ## Steps -/

variable {s t : State H} {pending : Set Nat} {label : Label}

theorem holds_remapped (p : Pair) : Holds (remapped p : State H) ∅ := by
  refine ⟨0, 0, 0, 0, irqRemap_mode p, Serving.done [], ?_, ?_, ?_, ?_⟩
  · simp
  · simp
  · have quiet : ¬ Asks 0 0 := fun asks => by simpa using asks_idle.mp asks
    simpa using quiet
  · simp

theorem remapped_idle (p : Pair) :
    (remapped p : State H) = { pics := chips 0 0 0 0, remaining := [] } :=
  congrArg₂ State.mk (irqRemap_mode (H := H) p) rfl

theorem serving_done {remaining : List (InterruptEffect H)} {isr isr₁ : BitVec 8}
    (serving : Serving remaining isr isr₁) (none : remaining = []) : isr = 0 ∧ isr₁ = 0 := by
  cases serving with
  | done calls => exact ⟨rfl, rfl⟩
  | master calls within => cases none
  | slave calls within => cases none

theorem serving_write {port data : Nat} {rest : List (InterruptEffect H)} {isr isr₁ : BitVec 8}
    (serving : Serving (.outportb port data :: rest) isr isr₁) :
    (port = 0x20 ∧ data = 0x20 ∧ isr₁ = 0 ∧ (∃ i < 8, isr = BitVec.twoPow 8 i) ∧
      Serving rest 0 0) ∨
    (port = 0xA0 ∧ data = 0x20 ∧ (∃ j < 8, isr₁ = BitVec.twoPow 8 j) ∧ Serving rest isr 0) := by
  generalize split : InterruptEffect.outportb port data :: rest = remaining at serving
  cases serving with
  | done calls => cases calls <;> simp at split
  | master calls within =>
    simp only [List.cons.injEq, InterruptEffect.outportb.injEq] at split
    obtain ⟨⟨rfl, rfl⟩, rfl⟩ := split
    exact Or.inl ⟨rfl, rfl, rfl, ⟨_, within, rfl⟩, Serving.done calls⟩
  | slave calls within =>
    simp only [List.cons.injEq, InterruptEffect.outportb.injEq] at split
    obtain ⟨⟨rfl, rfl⟩, rfl⟩ := split
    exact Or.inr ⟨rfl, rfl, ⟨_, within, rfl⟩, Serving.master calls (by omega)⟩

theorem serving_call {handler : H} {rest : List (InterruptEffect H)} {isr isr₁ : BitVec 8}
    (serving : Serving (.call handler :: rest) isr isr₁) : Serving rest isr isr₁ := by
  generalize split : InterruptEffect.call handler :: rest = remaining at serving
  cases serving with
  | done calls =>
    cases calls with
    | nil => simp at split
    | cons call calls =>
      simp only [List.map_cons, List.cons.injEq] at split
      rw [split.2]
      exact Serving.done calls
  | master calls within => simp at split
  | slave calls within => simp at split

theorem Holds.accepts (holds : Holds s pending) (idle : s.remaining = [])
    (some : pending.Nonempty) : ∃ vector t, Step s (.accept vector) t := by
  obtain ⟨irr, isr, irr₁, isr₁, pics, serving, matching⟩ := holds
  obtain ⟨rfl, rfl⟩ := serving_done serving idle
  have raised : Asks irr 0 := by
    obtain ⟨line, among⟩ := some
    obtain ⟨small, direct⟩ := matching.lines line among
    by_cases lower : line < 8
    · exact asks_idle.mpr ⟨line, (matching.master line lower direct).mpr among⟩
    · have set : irr₁.getLsbD (line - 8) = true :=
        (matching.slave (line - 8) (by omega)).mpr (by rwa [show 8 + (line - 8) = line by omega])
      exact asks_idle.mpr ⟨2, matching.latch.mpr (asks_idle.mpr ⟨_, set⟩)⟩
  have found : (mode 0x20 0x04 irr 0).request.isSome := mode_asks.mpr raised
  obtain ⟨i, asks⟩ := Option.isSome_iff_exists.mp found
  obtain ⟨line, -, -, irr', isr, irr₁', isr₁, accepted, -⟩ := matching.accept (H := H) asks
  obtain ⟨pics', remaining⟩ := s
  obtain rfl : remaining = [] := idle
  obtain rfl : pics' = _ := pics
  exact ⟨_, _, Step.accept InterruptHandlers.initial accepted⟩

theorem Holds.step (holds : Holds s pending) (step : Step s label t) :
    ∃ pending', Served pending label pending' ∧ Holds t pending' := by
  obtain ⟨irr, isr, irr₁, isr₁, pics, serving, matching⟩ := holds
  cases step with
  | raise line =>
    obtain ⟨irr', irr₁', same, matching'⟩ := matching.raise isr line
    refine ⟨_, Served.raise line, irr', isr, irr₁', isr₁, ?_, serving, matching'⟩
    change s.pics.raise _ = _
    rw [pics, same]
  | accept handlers accepted =>
    obtain ⟨rfl, rfl⟩ := serving_done serving rfl
    obtain rfl : _ = chips irr 0 irr₁ 0 := pics
    obtain ⟨i, asks⟩ := Pair.acknowledge_requests accepted
    obtain ⟨line, among, least, irr', isr, irr₁', isr₁, answer, matching', serves⟩ :=
      matching.accept (H := H) asks
    rw [answer] at accepted
    obtain ⟨rfl, rfl⟩ := Prod.mk.inj (Option.some.inj accepted)
    exact ⟨_, Served.accept among least, irr', isr, irr₁', isr₁, rfl, serves handlers, matching'⟩
  | write =>
    obtain rfl : _ = chips irr isr irr₁ isr₁ := pics
    rcases serving_write serving with ⟨rfl, rfl, rfl, ⟨i, within, rfl⟩, rest⟩ |
      ⟨rfl, rfl, ⟨j, within, rfl⟩, rest⟩
    · refine ⟨_, Served.perform, irr, 0, irr₁, 0, ?_, rest, matching⟩
      rw [(Pair.write_master _ _).1]
      exact congrArg₂ Pair.mk (mode_eoi within) rfl
    · have silent : ¬ Asks irr₁ 0 → irr.getLsbD 2 = false := by
        intro quiet
        rw [← Bool.not_eq_true, matching.latch]
        rintro ⟨k, raised, -⟩
        exact quiet (asks_idle.mpr ⟨k, raised⟩)
      obtain ⟨irr', edge, same, latch⟩ := edge_chips (p := chips irr isr irr₁ (BitVec.twoPow 8 j))
        irr isr rfl silent (fun asks _ => matching.latch.mpr asks)
      refine ⟨_, Served.perform, irr', isr, irr₁, 0, ?_, rest, ?_, matching.slave, latch,
        matching.lines⟩
      · rw [(Pair.write_slave _ _).1, ← edge]
        exact congrArg (Pair.edge _) (congrArg (Pair.mk _) (mode_eoi within))
      · intro i below other
        rw [same i other]
        exact matching.master i below other
  | call =>
    exact ⟨_, Served.perform, irr, isr, irr₁, isr₁, pics, serving_call serving, matching⟩

-- what a handler does next
theorem Holds.performs (holds : Holds s pending) (busy : s.remaining ≠ []) :
    ∃ t, Step s .perform t := by
  obtain ⟨irr, isr, irr₁, isr₁, pics, serving, matching⟩ := holds
  obtain ⟨pics', remaining⟩ := s
  cases serving with
  | done calls =>
    cases calls with
    | nil => exact absurd rfl busy
    | cons call calls => exact ⟨_, Step.call⟩
  | master calls within => exact ⟨_, Step.write⟩
  | slave calls within => exact ⟨_, Step.write⟩

/--
From any state of the controllers on, once `irq_remap` has run, requests are served as they come:
each line under its own vector, the most important one first, and none is lost or served twice,
however the requests, the handlers and their acknowledgements are interleaved. Nothing stays in
service between the handlers, so that a request is always accepted there.
-/
theorem requests_served (p : Pair) {labels : List Label}
    (run : Run Step (remapped p : State H) labels s) :
    ∃ pending, Run Served ∅ labels pending ∧
      (s.remaining = [] → s.pics.master.isr = 0 ∧ s.pics.slave.isr = 0 ∧
        ((∃ vector t, Step s (.accept vector) t) ↔ pending.Nonempty)) ∧
      (s.remaining ≠ [] → ∃ t, Step s .perform t) := by
  obtain ⟨pending, served, holds⟩ : ∃ pending, Run Served ∅ labels pending ∧ Holds s pending :=
    run.simulate (fun _ _ _ _ here step => here.step step) (holds_remapped p)
  refine ⟨pending, served, ?_, holds.performs⟩
  intro idle
  refine ⟨?_, ?_, ?_, holds.accepts idle⟩
  · obtain ⟨irr, isr, irr₁, isr₁, pics, serving, -⟩ := holds
    rw [pics]
    exact (serving_done serving idle).1
  · obtain ⟨irr, isr, irr₁, isr₁, pics, serving, -⟩ := holds
    rw [pics]
    exact (serving_done serving idle).2
  · rintro ⟨vector, t, step⟩
    obtain ⟨pending', served', -⟩ := holds.step step
    cases served' with
    | accept among least => exact ⟨_, among⟩

-- chips that nobody has initialised
def cold : Pair :=
  { master := { mode 0 0 0xFF 0xFF with imr := 0xFF, mode86 := false }
    slave := { mode 0 0 0xFF 0xFF with imr := 0xFF, mode86 := false } }

-- the mouse is overtaken by the keyboard
theorem requests_served_two : ∃ (s : State Unit) (pending : Set Nat),
    Run Step (remapped cold) [.raise 12, .raise 1, .accept 33, .perform] s ∧
      Run Served ∅ [.raise 12, .raise 1, .accept 33, .perform] pending := by
  have start : (remapped cold : State Unit) = { pics := chips 0 0 0 0, remaining := [] } :=
    remapped_idle cold
  have latched : (chips 0 0 0 0).raise 12 = chips 0x04 0 0x10 0 := by decide
  have both : (chips 0x04 0 0x10 0).raise 1 = chips 0x06 0 0x10 0 := by decide
  have accepted : (chips 0x06 0 0x10 0).acknowledge = some (33, chips 0x04 0x02 0x10 0) := by decide
  have first := Run.nil.snoc (Step.raise (s := (remapped cold : State Unit))
    (by decide : 12 < 16 ∧ 12 ≠ 2))
  rw [start] at first
  have second := first.snoc (Step.raise (by decide : 1 < 16 ∧ 1 ≠ 2))
  simp only [latched, both] at second
  have third := second.snoc (Step.accept InterruptHandlers.initial accepted)
  have fourth := third.snoc Step.write
  rw [← start] at fourth
  obtain ⟨pending, served, -⟩ := requests_served cold fourth
  exact ⟨_, pending, fourth, served⟩

end GekonOS.Requests
