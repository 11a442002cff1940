import GekonOS.Interrupts.Unseen
import GekonOS.Kernel.Idt
import GekonOS.Kernel.X86
import Mathlib.Tactic.IntervalCases

set_option autoImplicit false

namespace GekonOS.Descriptors

open X86 Cpu Stubs Unseen Transition

variable {m : Memory} {a : Word} {c : Cpu}

/-! ## Entries -/

-- what an entry says
def segmentOf (e : GdtEntry) : SegmentDescriptor :=
  { base := e.baseHigh ++ e.baseMiddle ++ e.baseLow
    limit := e.granularity.extractLsb' 0 4 ++ e.limitLow
    access := e.access
    flags := e.granularity.extractLsb' 4 4 }

def gateOf (e : IdtEntry) : Gate :=
  { offset := e.baseHi ++ e.baseLo, selector := e.sel, flags := e.flags }

theorem segmentDescriptor_stored {e : GdtEntry} (stored : Stored m a e.bytes) :
    segmentDescriptor m a = segmentOf e := by
  have limitLow : read16 m a = e.limitLow := stored.left.left.half
  have baseLow : read16 m (a + 2) = e.baseLow := stored.left.right.half
  have middle : m (a + 4) = e.baseMiddle := stored 4 (by decide : 4 < 8)
  have access : m (a + 5) = e.access := stored 5 (by decide : 5 < 8)
  have granularity : m (a + 6) = e.granularity := stored 6 (by decide : 6 < 8)
  have high : m (a + 7) = e.baseHigh := stored 7 (by decide : 7 < 8)
  rw [segmentDescriptor, limitLow, baseLow, middle, access, granularity, high, segmentOf]

theorem gateDescriptor_stored {e : IdtEntry} (stored : Stored m a e.bytes) :
    gateDescriptor m a = gateOf e := by
  have low : read16 m a = e.baseLo := stored.left.left.left.half
  have selector : read16 m (a + 2) = e.sel := stored.left.left.right.half
  have flags : m (a + 5) = e.flags := stored 5 (by decide : 5 < 8)
  have high : read16 m (a + 6) = e.baseHi := stored.right.half
  rw [gateDescriptor, low, selector, flags, high, gateOf]

-- a field that is cut out with a shift and a mask
theorem masked (v : Word) (shift width : Nat) (within : width ≤ 32) :
    (v >>> shift &&& BitVec.ofNat 32 (2 ^ width - 1)).setWidth width =
      v.extractLsb' shift width := by
  apply BitVec.eq_of_getLsbD_eq
  intro i lt
  have mask : (BitVec.ofNat 32 (2 ^ width - 1)).getLsbD i = true := by
    rw [BitVec.getLsbD_ofNat, Nat.testBit_two_pow_sub_one]
    simp only [Bool.and_eq_true, decide_eq_true_eq]
    omega
  simp only [BitVec.getLsbD_setWidth, BitVec.getLsbD_and, BitVec.getLsbD_ushiftRight,
    BitVec.getLsbD_extractLsb', mask, Bool.and_true]

theorem append_base (v : Word) :
    v.extractLsb' 24 8 ++ v.extractLsb' 16 8 ++ v.extractLsb' 0 16 = v := by
  apply BitVec.eq_of_getLsbD_eq
  intro i lt
  simp only [BitVec.getLsbD_append, BitVec.getLsbD_extractLsb']
  grind

theorem append_offset (v : Word) : v.extractLsb' 16 16 ++ v.extractLsb' 0 16 = v := by
  apply BitVec.eq_of_getLsbD_eq
  intro i lt
  simp only [BitVec.getLsbD_append, BitVec.getLsbD_extractLsb']
  grind

-- the byte that the limit shares with the flags
theorem granularity_parts (limit : Word) (gran : BitVec 8) :
    ((limit >>> 16 &&& 0x0F).setWidth 8 ||| gran &&& 0xF0).extractLsb' 0 4 =
        limit.extractLsb' 16 4 ∧
      ((limit >>> 16 &&& 0x0F).setWidth 8 ||| gran &&& 0xF0).extractLsb' 4 4 =
        gran.extractLsb' 4 4 := by
  constructor <;> apply BitVec.eq_of_getLsbD_eq <;> intro i lt <;>
    interval_cases i <;> simp

theorem append_limit (v : Word) :
    v.extractLsb' 16 4 ++ v.extractLsb' 0 16 = v.extractLsb' 0 20 := by
  apply BitVec.eq_of_getLsbD_eq
  intro i lt
  simp only [BitVec.getLsbD_append, BitVec.getLsbD_extractLsb']
  grind

theorem gdtSetGate_segment (num : Nat) (base limit : Word) (access gran : BitVec 8)
    (entries : Nat → GdtEntry) :
    segmentOf (gdtSetGate num base limit access gran entries num) =
      { base := base, limit := limit.extractLsb' 0 20, access := access,
        flags := gran.extractLsb' 4 4 } := by
  have low : (base &&& 0xFFFF).setWidth 16 = base.extractLsb' 0 16 := masked base 0 16 (by decide)
  have middle : (base >>> 16 &&& 0xFF).setWidth 8 = base.extractLsb' 16 8 :=
    masked base 16 8 (by decide)
  have high : (base >>> 24 &&& 0xFF).setWidth 8 = base.extractLsb' 24 8 :=
    masked base 24 8 (by decide)
  have limitLow : (limit &&& 0xFFFF).setWidth 16 = limit.extractLsb' 0 16 :=
    masked limit 0 16 (by decide)
  obtain ⟨limitHigh, flags⟩ := granularity_parts limit gran
  rw [gdtSetGate, Function.update_self, segmentOf, low, middle, high, limitLow, limitHigh, flags,
    append_base, append_limit]

theorem idtSetGate_gate (num : Nat) (base : Word) (sel : BitVec 16) (flags : BitVec 8)
    (entries : Nat → IdtEntry) :
    gateOf (idtSetGate num base sel flags entries num) =
      { offset := base, selector := sel, flags := flags } := by
  have low : (base &&& 0xFFFF).setWidth 16 = base.extractLsb' 0 16 := masked base 0 16 (by decide)
  have high : (base >>> 16 &&& 0xFFFF).setWidth 16 = base.extractLsb' 16 16 :=
    masked base 16 16 (by decide)
  rw [idtSetGate, Function.update_self, gateOf, low, high, append_offset]

/-! ## Tables -/

/-- The table registers lead to these entries. -/
structure Loaded (gdtEntries : Nat → GdtEntry) (idtEntries : Nat → IdtEntry) (c : Cpu) : Prop where
  gdtr : c.gdtr.limit = gdtLimit
  idtr : c.idtr.limit = idtLimit
  gdt : ∀ i < 5, Stored c.mem (c.gdtr.base + BitVec.ofNat 32 (8 * i)) (gdtEntries i).bytes
  idt : ∀ i < 256, Stored c.mem (c.idtr.base + BitVec.ofNat 32 (8 * i)) (idtEntries i).bytes

-- a selector of an entry in the global table, other than the null entry
def Names (selector : BitVec 16) (index : Nat) : Prop :=
  selector.toNat / 8 = index ∧ 0 < index ∧ index < 5 ∧ selector.getLsbD 2 = false

instance (selector : BitVec 16) (index : Nat) : Decidable (Names selector index) :=
  inferInstanceAs (Decidable (_ ∧ _))

variable {gdtEntries : Nat → GdtEntry} {idtEntries : Nat → IdtEntry}

theorem segment_iff (limit : c.gdtr.limit = gdtLimit)
    (gdt : ∀ i < 5, Stored c.mem (c.gdtr.base + BitVec.ofNat 32 (8 * i)) (gdtEntries i).bytes)
    {selector : BitVec 16} {d : SegmentDescriptor} :
    c.segment selector = some d ↔
      ∃ index, Names selector index ∧ segmentOf (gdtEntries index) = d := by
  have five : gdtLimit.toNat = 39 := by decide
  rw [Cpu.segment]
  by_cases rejected : selector.toNat / 8 = 0 ∨ selector.getLsbD 2 = true
  · rw [if_pos rejected]
    constructor
    · intro none
      cases none
    · rintro ⟨index, ⟨rfl, positive, -, global⟩, -⟩
      rcases rejected with null | isLocal
      · omega
      · rw [global] at isLocal
        cases isLocal
  · rw [if_neg rejected]
    rw [not_or] at rejected
    rw [TableRegister.entry, limit, five]
    by_cases within : selector.toNat / 8 < 5
    · rw [if_pos (by omega), Option.map_some, segmentDescriptor_stored (gdt _ within)]
      constructor
      · intro found
        exact ⟨_, ⟨rfl, by omega, within, by simpa using rejected.2⟩, Option.some.inj found⟩
      · rintro ⟨index, ⟨rfl, -⟩, rfl⟩
        rfl
    · rw [if_neg (by omega)]
      constructor
      · intro none
        cases none
      · rintro ⟨index, ⟨rfl, -, below, -⟩, -⟩
        exact absurd below within

theorem Loaded.segment (loaded : Loaded gdtEntries idtEntries c) {selector : BitVec 16}
    {d : SegmentDescriptor} : c.segment selector = some d ↔
      ∃ index, Names selector index ∧ segmentOf (gdtEntries index) = d :=
  segment_iff loaded.gdtr loaded.gdt

theorem Loaded.gate (loaded : Loaded gdtEntries idtEntries c) {vector : Nat} {gate : Gate} :
    c.gate vector = some gate ↔ vector < 256 ∧ gateOf (idtEntries vector) = gate := by
  have last : idtLimit.toNat = 2047 := by decide
  rw [Cpu.gate, TableRegister.entry, loaded.idtr, last]
  by_cases within : vector < 256
  · rw [if_pos (by omega), Option.map_some, gateDescriptor_stored (loaded.idt _ within)]
    simp [within]
  · rw [if_neg (by omega)]
    simp [within]

-- the entries from `base` on
def image (entries : Nat → List (BitVec 8)) (base : Word) : Memory := fun a =>
  (entries ((a - base).toNat / 8)).getD ((a - base).toNat % 8) 0

-- stacks with the arguments of `gdt_flush` and `idt_flush`, each in front of what they point to
def flushStack : List (BitVec 8) :=
  bytes32 0 ++ bytes32 0x3008 ++ pointerBytes gdtLimit 0x1000 ++ bytes16 0 ++
    bytes32 0 ++ bytes32 0x3018 ++ pointerBytes idtLimit 0x2000

def booted (gdtEntries : Nat → GdtEntry) (idtEntries : Nat → IdtEntry) (esp : Word) : Cpu :=
  { regs := fun r => if r = .esp then esp else 0
    segs := fun s => if s = .cs then 0x08 else 0x10
    eip := 0x101000
    eflags := 0x202
    gdtr := { base := 0x1000, limit := gdtLimit }
    idtr := { base := 0x2000, limit := idtLimit }
    mem := fun a =>
      if a.toNat < 0x2000 then image (fun i => (gdtEntries i).bytes) 0x1000 a
      else if a.toNat < 0x3000 then image (fun i => (idtEntries i).bytes) 0x2000 a
      else flushStack.getD (a.toNat - 0x3000) 0
    device := fun _ => 0
    transfers := [] }

theorem image_stored (entries : Nat → List (BitVec 8)) {base : Word} {i j : Nat}
    (length : (entries i).length = 8) (within : i < 256) (h : j < (entries i).length) :
    image entries base (base + BitVec.ofNat 32 (8 * i) + BitVec.ofNat 32 j) = (entries i)[j] := by
  have place : (base + BitVec.ofNat 32 (8 * i) + BitVec.ofNat 32 j - base).toNat = 8 * i + j := by
    rw [length] at h
    bv_omega
  rw [image, place, show (8 * i + j) / 8 = i by omega, show (8 * i + j) % 8 = j by omega,
    List.getD_eq_getElem?_getD, List.getElem?_eq_getElem h, Option.getD_some]

theorem booted_loaded (gdtEntries : Nat → GdtEntry) (idtEntries : Nat → IdtEntry) (esp : Word) :
    Loaded gdtEntries idtEntries (booted gdtEntries idtEntries esp) := by
  refine ⟨rfl, rfl, ?_, ?_⟩
  · intro i within j h
    have length : (gdtEntries i).bytes.length = 8 := rfl
    refine (if_pos ?_).trans
      (image_stored (fun i => (gdtEntries i).bytes) length (by omega) h)
    change (0x1000 + BitVec.ofNat 32 (8 * i) + BitVec.ofNat 32 j : Word).toNat < 0x2000
    rw [length] at h
    bv_omega
  · intro i within j h
    have length : (idtEntries i).bytes.length = 8 := rfl
    have place : (0x2000 + BitVec.ofNat 32 (8 * i) + BitVec.ofNat 32 j : Word).toNat =
        0x2000 + 8 * i + j := by
      rw [length] at h
      bv_omega
    rw [length] at h
    refine (if_neg ?_).trans ((if_pos ?_).trans
      (image_stored (fun i => (idtEntries i).bytes) length within h))
    · change ¬ (0x2000 + BitVec.ofNat 32 (8 * i) + BitVec.ofNat 32 j : Word).toNat < 0x2000
      omega
    · change (0x2000 + BitVec.ofNat 32 (8 * i) + BitVec.ofNat 32 j : Word).toNat < 0x3000
      omega

/--
What is set in an entry is what the processor finds there, although the base and the limit are
spread over several fields, and it finds nothing else changed.
-/
theorem set_gates_read_back {num vector : Nat} {base limit offset : Word} {access gran : BitVec 8}
    {sel : BitVec 16} {flags : BitVec 8}
    (loaded : Loaded (gdtSetGate num base limit access gran gdtEntries)
      (idtSetGate vector offset sel flags idtEntries) c) :
    (∀ selector, Names selector num → c.segment selector = some
      { base := base, limit := limit.extractLsb' 0 20, access := access,
        flags := gran.extractLsb' 4 4 }) ∧
    (∀ selector index, Names selector index → index ≠ num →
      c.segment selector = some (segmentOf (gdtEntries index))) ∧
    (vector < 256 → c.gate vector = some { offset := offset, selector := sel, flags := flags }) ∧
    (∀ other < 256, other ≠ vector → c.gate other = some (gateOf (idtEntries other))) := by
  refine ⟨?_, ?_, ?_, ?_⟩
  · intro selector names
    exact loaded.segment.mpr ⟨num, names, gdtSetGate_segment ..⟩
  · intro selector index names other
    refine loaded.segment.mpr ⟨index, names, ?_⟩
    rw [gdtSetGate, Function.update_of_ne other]
  · intro within
    exact loaded.gate.mpr ⟨within, idtSetGate_gate ..⟩
  · intro other within different
    refine loaded.gate.mpr ⟨within, ?_⟩
    rw [idtSetGate, Function.update_of_ne different]

theorem set_gates_read_back_scattered :
    (booted (gdtSetGate 3 0x12345678 0xABCDE 0xFA 0xCF fun _ => GdtEntry.zero)
        (idtSetGate 33 0x89ABCDEF 0x08 0x8E fun _ => IdtEntry.zero) 0x9000).segment 0x1B =
      some { base := 0x12345678, limit := (0xABCDE : Word).extractLsb' 0 20, access := 0xFA,
             flags := (0xCF : BitVec 8).extractLsb' 4 4 } ∧
    (booted (gdtSetGate 3 0x12345678 0xABCDE 0xFA 0xCF fun _ => GdtEntry.zero)
        (idtSetGate 33 0x89ABCDEF 0x08 0x8E fun _ => IdtEntry.zero) 0x9000).gate 33 =
      some { offset := 0x89ABCDEF, selector := 0x08, flags := 0x8E } := by
  obtain ⟨segment, -, gate, -⟩ := set_gates_read_back (booted_loaded
    (gdtSetGate 3 0x12345678 0xABCDE 0xFA 0xCF fun _ => GdtEntry.zero)
    (idtSetGate 33 0x89ABCDEF 0x08 0x8E fun _ => IdtEntry.zero) 0x9000)
  exact ⟨segment 0x1B (by decide), gate (by decide)⟩

/-! ## The segments -/

-- what `GDT_Init` leaves
theorem gdtInit_segment {index : Nat} (positive : 0 < index) (within : index < 5) :
    (segmentOf (gdtInit index)).base = 0 ∧ (segmentOf (gdtInit index)).last = 4294967295 := by
  interval_cases index <;> decide

theorem gdtFlush_run {back pointer table : Word} (stack : c.stack 2 = [back, pointer])
    (stored : Stored c.mem pointer (pointerBytes gdtLimit table)) :
    (c.run Asm.gdtFlush).gdtr = { base := table, limit := gdtLimit } ∧
      (c.run Asm.gdtFlush).mem = c.mem ∧ (c.run Asm.gdtFlush).eip = back ∧
      (c.run Asm.gdtFlush).esp = c.esp + 4 ∧
      (∀ r ∉ [Reg.eax, .esp], (c.run Asm.gdtFlush).regs r = c.regs r) ∧
      (c.run Asm.gdtFlush).segs .cs = 0x08 ∧
      (∀ s, s ≠ .cs → (c.run Asm.gdtFlush).segs s = 0x10) := by
  have words : [read32 c.mem c.esp, read32 c.mem (c.esp + 4)] = [back, pointer] := by
    rw [← stack]
    simp [Cpu.stack, List.range_succ]
  simp only [List.cons.injEq] at words
  obtain ⟨top, argument, -⟩ := words
  have limit : read16 c.mem pointer = gdtLimit := stored.left.half
  have base : read32 c.mem (pointer + 2) = table := stored.right.word
  have argument' : read32 c.mem (c.regs .esp + 4) = pointer := argument
  have run : c.run Asm.gdtFlush = Cpu.exec { c with
      regs := Function.update c.regs .eax (setLow pointer 0x10)
      segs := fun s => if s = .cs then 0x08 else 0x10
      gdtr := { base := table, limit := gdtLimit } } .ret := by
    rw [Asm.gdtFlush, run_cons, run_cons, run_cons]
    have segs (v : BitVec 16) (f : Seg → BitVec 16) : Function.update (Function.update
        (Function.update (Function.update (Function.update (Function.update f .ds v) .es v) .fs v)
          .gs v) .ss v) .cs 0x08 = fun s => if s = .cs then 0x08 else v := by
      funext s
      cases s <;> simp
    simp only [run_cons, run_nil, exec, address, argument', setReg, Function.update_self, readTable,
      limit, base, setSeg, setLow_low, Function.update_idem, segs]
  rw [run]
  generalize setLow pointer 0x10 = scratch
  have esp : Function.update c.regs .eax scratch .esp = c.esp :=
    Function.update_of_ne (by decide) _ _
  have eip : read32 c.mem (Function.update c.regs .eax scratch .esp) = back := by rw [esp, top]
  have height : Function.update c.regs .eax scratch .esp + 4 = c.esp + 4 := by rw [esp]
  refine ⟨rfl, rfl, eip, (drop_esp _).trans height, ?_, rfl, ?_⟩
  · intro r other
    simp only [List.mem_cons, List.not_mem_nil, or_false, not_or] at other
    exact (ret_regs _ other.2).trans (Function.update_of_ne other.1 _ _)
  · intro s other
    exact if_neg other

/-- Flat segments for the kernel: an offset is an address, whatever segment it goes through. -/
structure FlatSegments (c d : Cpu) : Prop where
  eip : d.eip = c.top
  esp : d.esp = c.esp + 4
  kept : ∀ r ∉ [Reg.eax, .esp], d.regs r = c.regs r
  mem : d.mem = c.mem
  -- the code segment is executable, the others are not, and all are of the kernel
  loaded : ∀ s, ∃ segment, d.segment (d.segs s) = some segment ∧
    (segment.access.getLsbD 3 = true ↔ s = .cs) ∧ segment.access.extractLsb' 5 2 = 0#2
  linear : ∀ selector segment, d.segment selector = some segment →
    ∀ offset, segment.linear offset = some offset
  named : ∀ selector, (d.segment selector).isSome ↔ ∃ index, Names selector index

theorem idtInit_gate (stub : Nat → Word) (n : Nat) : gateOf (idtInit stub n) =
    if n < 48 then { offset := stub n, selector := 0x08, flags := 0x8E }
    else { offset := 0, selector := 0, flags := 0 } := by
  have general (count : Nat) : gateOf ((List.range count).foldl (fun entries num =>
      idtSetGate num (stub num) 0x08 0x8E entries) (fun _ => IdtEntry.zero) n) =
      if n < count then { offset := stub n, selector := 0x08, flags := 0x8E }
      else { offset := 0, selector := 0, flags := 0 } := by
    induction count with
    | zero =>
      rw [if_neg (by omega)]
      change gateOf IdtEntry.zero = _
      decide
    | succ count ih =>
      rw [List.range_succ, List.foldl_append]
      by_cases last : n = count
      · subst last
        rw [if_pos (by omega)]
        exact idtSetGate_gate ..
      · have kept (entries : Nat → IdtEntry) :
            idtSetGate count (stub count) 0x08 0x8E entries n = entries n :=
          Function.update_of_ne last _ _
        rw [List.foldl_cons, List.foldl_nil, kept, ih]
        by_cases below : n < count
        · rw [if_pos below, if_pos (by omega)]
        · rw [if_neg below, if_neg (by omega)]
  exact general 48

/-- The kernel's code: its handlers, its stubs and where they stand. -/
structure Machine extends Handlers where
  stub : Nat → Word
  back : Nat → Word
  distinct : Set.InjOn stub {n | n < 48}

/-- A vector is delivered, and the stub that stands where the processor goes on is run. -/
def Delivered (k : Machine) (c : Cpu) (label : Nat × Option Word) (f : Cpu) : Prop :=
  ∃ e n, c.deliver label.1 label.2 = some e ∧ n < 48 ∧ e.eip = k.stub n ∧
    f = e.run (interruptStub (k.back n) k.isrHandler k.irqHandler n)

-- the bytes of both tables
def tables (c : Cpu) : Set Word := Above c.gdtr.base 40 ∪ Above c.idtr.base 2048

/-- The kernel after `GDT_Init` and `IDT_Init`, with its stack away from the tables. -/
structure Ready (k : Machine) (c : Cpu) : Prop where
  loaded : Loaded gdtInit (idtInit k.stub) c
  code : c.segs .cs = 0x08
  flat : Flat c
  stack : Disjoint k.owned (Below (c.esp + 4) 64)
  apart : Disjoint (tables c) (k.owned ∪ Below c.esp (64 + k.depth))

section Delivery

variable {k : Machine} {f : Cpu}

theorem Ready.deliver (ready : Ready k c) (vector : Nat) (errorCode : Option Word) :
    c.deliver vector errorCode =
      if vector < 48 then some (c.interrupt 0x08 (k.stub vector) errorCode) else none := by
  have code : c.segment 0x08 = some (segmentOf (gdtInit 1)) :=
    ready.loaded.segment.mpr ⟨1, by decide, rfl⟩
  have linear : (segmentOf (gdtInit 1)).linear (k.stub vector) = some (k.stub vector) := by
    obtain ⟨base, last⟩ := gdtInit_segment (show 0 < 1 by omega) (by omega)
    rw [SegmentDescriptor.linear, base, last, if_pos (by omega)]
    simp
  by_cases within : vector < 256
  · have gate : c.gate vector = some (gateOf (idtInit k.stub vector)) :=
      ready.loaded.gate.mpr ⟨within, rfl⟩
    rw [idtInit_gate] at gate
    by_cases set : vector < 48
    · rw [if_pos set] at gate ⊢
      have present : ((0x8E : BitVec 8).getLsbD 7 = true ∧
          (0x8E : BitVec 8).extractLsb' 0 5 = 0x0E#5) := by decide
      have kernel : (segmentOf (gdtInit 1)).access.getLsbD 7 = true ∧
          (segmentOf (gdtInit 1)).access.extractLsb' 3 2 = 3#2 ∧
          (segmentOf (gdtInit 1)).access.extractLsb' 5 2 = (c.segs .cs).extractLsb' 0 2 := by
        rw [ready.code]
        decide
      simp only [Cpu.deliver, gate, Option.bind_eq_bind, Option.bind_some, code, linear]
      rw [guard, if_pos present, guard, if_pos kernel]
      rfl
    · rw [if_neg set] at gate ⊢
      have absent : ¬ ((0 : BitVec 8).getLsbD 7 = true ∧
          (0 : BitVec 8).extractLsb' 0 5 = 0x0E#5) := by decide
      simp only [Cpu.deliver, gate, Option.bind_eq_bind, Option.bind_some]
      rw [guard, if_neg absent]
      rfl
  · have none : c.gate vector = none := by
      rw [Option.eq_none_iff_forall_ne_some]
      intro gate found
      exact within (ready.loaded.gate.mp found).1
    rw [if_neg (by omega), Cpu.deliver, none]
    rfl

-- where the processor goes on is where the stub of the vector stands
theorem Ready.delivered_iff (ready : Ready k c) {vector : Nat} {errorCode : Option Word} :
    Delivered k c (vector, errorCode) f ↔ vector < 48 ∧
      f = served c (k.back vector) k.isrHandler k.irqHandler 0x08 (k.stub vector) errorCode
        vector := by
  rw [Delivered, ready.deliver]
  by_cases set : vector < 48
  · rw [if_pos set]
    constructor
    · rintro ⟨e, n, entry, within, place, rfl⟩
      obtain rfl := Option.some.inj entry
      obtain rfl := k.distinct set within (show k.stub vector = k.stub n from place)
      exact ⟨set, rfl⟩
    · rintro ⟨-, rfl⟩
      exact ⟨_, vector, rfl, set, rfl, rfl⟩
  · rw [if_neg set]
    constructor
    · rintro ⟨e, n, entry, -⟩
      cases entry
    · rintro ⟨within, -⟩
      exact absurd within set

theorem Loaded.congr {d : Cpu} (loaded : Loaded gdtEntries idtEntries c)
    (registers : d.gdtr = c.gdtr ∧ d.idtr = c.idtr) (same : Set.EqOn d.mem c.mem (tables c)) :
    Loaded gdtEntries idtEntries d := by
  constructor
  case gdtr => rw [registers.1, loaded.gdtr]
  case idtr => rw [registers.2, loaded.idtr]
  case gdt =>
    intro i within j h
    have length : (gdtEntries i).bytes.length = 8 := rfl
    rw [registers.1, same (Or.inl ?_)]
    · exact loaded.gdt i within j h
    · rw [mem_above]
      rw [length] at h
      bv_omega
  case idt =>
    intro i within j h
    have length : (idtEntries i).bytes.length = 8 := rfl
    rw [registers.2, same (Or.inr ?_)]
    · exact loaded.idt i within j h
    · rw [mem_above]
      rw [length] at h
      bv_omega

theorem Ready.resumes (ready : Ready k c) {vector : Nat} (set : vector < 48)
    {errorCode : Option Word} (expected : errorCode.isSome = expectsErrorCode vector) :
    Resumes k.owned k.depth c (served c (k.back vector) k.isrHandler k.irqHandler 0x08
      (k.stub vector) errorCode vector) := by
  refine served_resumes c set k.isr k.irq k.few (ready.stack.mono_right ?_) expected
  intro x below
  rw [mem_below] at below ⊢
  bv_omega

theorem Ready.next (ready : Ready k c) (resumes : Resumes k.owned k.depth c f) : Ready k f := by
  have esp : f.esp = c.esp := congrFun resumes.regs .esp
  have sameTables : tables f = tables c := by
    rw [tables, tables, resumes.tables.1, resumes.tables.2]
  constructor
  case loaded =>
    refine ready.loaded.congr resumes.tables (resumes.frame.mono ?_)
    exact Set.subset_compl_iff_disjoint_right.mpr ready.apart
  case code => rw [resumes.segs .cs (by simp), ready.code]
  case flat =>
    intro s member
    rw [resumes.data s member, resumes.segs .ds (by simp)]
  case stack =>
    rw [esp]
    exact ready.stack
  case apart =>
    rw [esp, sameTables]
    exact ready.apart

theorem Ready.segs (ready : Ready k c) (resumes : Resumes k.owned k.depth c f) :
    f.segs = c.segs := by
  funext s
  by_cases data : s ∈ [Seg.es, .fs, .gs]
  · rw [resumes.data s data, ready.flat s data]
  · refine resumes.segs s ?_
    cases s <;> simp at data ⊢

theorem idtFlush_run {back pointer table : Word} (stack : c.stack 2 = [back, pointer])
    (stored : Stored c.mem pointer (pointerBytes idtLimit table)) :
    (c.run Asm.idtFlush).idtr = { base := table, limit := idtLimit } ∧
      (c.run Asm.idtFlush).gdtr = c.gdtr ∧ (c.run Asm.idtFlush).segs = c.segs ∧
      (c.run Asm.idtFlush).mem = c.mem ∧ (c.run Asm.idtFlush).eip = back ∧
      (c.run Asm.idtFlush).esp = c.esp + 4 := by
  have words : [read32 c.mem c.esp, read32 c.mem (c.esp + 4)] = [back, pointer] := by
    rw [← stack]
    simp [Cpu.stack, List.range_succ]
  simp only [List.cons.injEq] at words
  obtain ⟨top, argument, -⟩ := words
  have limit : read16 c.mem pointer = idtLimit := stored.left.half
  have base : read32 c.mem (pointer + 2) = table := stored.right.word
  have argument' : read32 c.mem (c.regs .esp + 4) = pointer := argument
  have run : c.run Asm.idtFlush = Cpu.exec { c with
      regs := Function.update c.regs .eax pointer
      idtr := { base := table, limit := idtLimit } } .ret := by
    simp only [Asm.idtFlush, run_cons, run_nil, exec, address, argument', setReg,
      Function.update_self, readTable, limit, base]
  rw [run]
  have esp : Function.update c.regs .eax pointer .esp = c.esp :=
    Function.update_of_ne (by decide) _ _
  have eip : read32 c.mem (Function.update c.regs .eax pointer .esp) = back := by rw [esp, top]
  have height : Function.update c.regs .eax pointer .esp + 4 = c.esp + 4 := by rw [esp]
  exact ⟨rfl, rfl, rfl, rfl, eip, (drop_esp _).trans height⟩

/-- The kernel at the entry of `idt_flush`, with both tables in memory and its stack away from them. -/
structure Enters (k : Machine) (c : Cpu) (back table : Word) : Prop where
  call : ∃ pointer, c.stack 2 = [back, pointer] ∧
    Stored c.mem pointer (pointerBytes idtLimit table)
  gdtr : c.gdtr.limit = gdtLimit
  gdt : ∀ i < 5, Stored c.mem (c.gdtr.base + BitVec.ofNat 32 (8 * i)) (gdtInit i).bytes
  idt : ∀ i < 256, Stored c.mem (table + BitVec.ofNat 32 (8 * i)) (idtInit k.stub i).bytes
  code : c.segs .cs = 0x08
  flat : Flat c
  stack : Disjoint k.owned (Below (c.esp + 8) 64)
  apart : Disjoint (Above c.gdtr.base 40 ∪ Above table 2048)
    (k.owned ∪ Below (c.esp + 4) (64 + k.depth))

theorem Enters.ready {back table : Word} (enters : Enters k c back table) :
    Ready k (c.run Asm.idtFlush) ∧ (c.run Asm.idtFlush).eip = back := by
  obtain ⟨pointer, stack, stored⟩ := enters.call
  obtain ⟨idtr, gdtr, segs, mem, eip, esp⟩ := idtFlush_run stack stored
  refine ⟨?_, eip⟩
  constructor
  case loaded =>
    constructor
    case gdtr => rw [gdtr, enters.gdtr]
    case idtr => rw [idtr]
    case gdt =>
      rw [mem, gdtr]
      exact enters.gdt
    case idt =>
      rw [mem, idtr]
      exact enters.idt
  case code => rw [segs, enters.code]
  case flat =>
    unfold Flat
    rw [segs]
    exact enters.flat
  case stack =>
    rw [esp, BitVec.add_assoc]
    exact enters.stack
  case apart =>
    rw [esp, tables, gdtr, idtr]
    exact enters.apart

theorem Ready.run (ready : Ready k c) {labels : List (Nat × Option Word)}
    (expected : ∀ label ∈ labels, label.2.isSome = expectsErrorCode label.1)
    (run : Run (Delivered k) c labels f) :
    Ready k f ∧ f.regs = c.regs ∧ f.segs = c.segs ∧ f.eip = c.eip ∧ f.eflags = c.eflags ∧
      Set.EqOn f.mem c.mem (k.owned ∪ Below c.esp (64 + k.depth))ᶜ := by
  induction run with
  | nil => exact ⟨ready, rfl, rfl, rfl, rfl, fun _ _ => rfl⟩
  | snoc earlier taken ih =>
    rename_i labels s f label
    obtain ⟨here, regs, segs, eip, eflags, mem⟩ :=
      ih (fun other member => expected other (List.mem_append_left _ member))
    obtain ⟨set, rfl⟩ := here.delivered_iff.mp taken
    have resumes := here.resumes set (expected label (by simp))
    have esp : s.esp = c.esp := congrFun regs .esp
    refine ⟨here.next resumes, resumes.regs.trans regs, (here.segs resumes).trans segs,
      resumes.eip.trans eip, resumes.eflags.trans eflags, ?_⟩
    have frame := resumes.frame
    rw [esp] at frame
    exact frame.trans mem

def quiet : Machine :=
  { idle with
    stub := fun n => 0x100000 + BitVec.ofNat 32 (16 * n)
    back := fun _ => 0x100400
    distinct := by
      intro m below n within same
      have below : m < 48 := below
      have within : n < 48 := within
      change (0x100000 : Word) + BitVec.ofNat 32 (16 * m) =
        0x100000 + BitVec.ofNat 32 (16 * n) at same
      bv_omega }

def kernel : Cpu := booted gdtInit (idtInit quiet.stub) 0x3010

theorem kernel_enters : Enters quiet kernel 0 0x2000 where
  call := by
    refine ⟨0x3018, by decide, ?_⟩
    unfold Stored
    decide
  gdtr := rfl
  gdt := (booted_loaded gdtInit (idtInit quiet.stub) 0x3010).gdt
  idt := (booted_loaded gdtInit (idtInit quiet.stub) 0x3010).idt
  code := rfl
  flat := by
    intro s member
    simp only [List.mem_cons, List.not_mem_nil, or_false] at member
    rcases member with rfl | rfl | rfl <;> rfl
  stack := Set.empty_disjoint _
  apart := by
    change Disjoint (Above 0x1000 40 ∪ Above 0x2000 2048) (∅ ∪ Below 0x3014 64)
    rw [Set.empty_union, Set.disjoint_left]
    rintro x (gdt | idt) below
    · rw [mem_above] at gdt
      rw [mem_below] at below
      bv_omega
    · rw [mem_above] at idt
      rw [mem_below] at below
      bv_omega

end Delivery

end GekonOS.Descriptors
