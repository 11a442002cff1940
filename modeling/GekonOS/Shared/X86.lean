import Mathlib

set_option autoImplicit false

/-!
# A 32-bit x86 processor

The instructions that stubs around compiled code are made of. Addresses wrap around, and the stack
grows downwards.
-/

namespace X86

inductive Reg
  | eax | ecx | edx | ebx | esp | ebp | esi | edi
deriving DecidableEq

inductive Seg
  | es | cs | ss | ds | fs | gs
deriving DecidableEq

abbrev Word : Type := BitVec 32

abbrev Memory : Type := Word → BitVec 8

/-- What goes over the input and output ports. -/
inductive Transfer
  | out8 (port : BitVec 16) (value : BitVec 8)
  | out16 (port value : BitVec 16)
  | out32 (port : BitVec 16) (value : Word)
  | in8 (port : BitVec 16)
  | in16 (port : BitVec 16)
  | in32 (port : BitVec 16)
deriving DecidableEq

/-- The base and the limit of a descriptor table. -/
structure TableRegister where
  base : Word
  limit : BitVec 16
deriving DecidableEq

structure Cpu where
  regs : Reg → Word
  segs : Seg → BitVec 16
  eip : Word
  eflags : Word
  gdtr : TableRegister
  idtr : TableRegister
  mem : Memory
  -- what a device would answer at a port
  device : BitVec 16 → Word
  transfers : List Transfer

def read16 (m : Memory) (a : Word) : BitVec 16 := m (a + 1) ++ m a

def read32 (m : Memory) (a : Word) : Word := read16 m (a + 2) ++ read16 m a

def write32 (m : Memory) (a v : Word) : Memory := fun x =>
  if x = a then v.extractLsb' 0 8
  else if x = a + 1 then v.extractLsb' 8 8
  else if x = a + 2 then v.extractLsb' 16 8
  else if x = a + 3 then v.extractLsb' 24 8
  else m x

-- the low half of a register is replaced
def setLow (v : Word) (low : BitVec 16) : Word := v.extractLsb' 16 16 ++ low

def setByte (v : Word) (low : BitVec 8) : Word := v.extractLsb' 8 24 ++ low

namespace Cpu

variable (c : Cpu)

def esp : Word := c.regs .esp

def setReg (r : Reg) (v : Word) : Cpu := { c with regs := Function.update c.regs r v }

def setSeg (s : Seg) (v : BitVec 16) : Cpu := { c with segs := Function.update c.segs s v }

def push (v : Word) : Cpu :=
  { c with regs := Function.update c.regs .esp (c.esp - 4), mem := write32 c.mem (c.esp - 4) v }

-- the word on top of the stack, and the stack without it
def top : Word := read32 c.mem c.esp

def drop : Cpu := c.setReg .esp (c.esp + 4)

def pushAll (vs : List Word) : Cpu := vs.foldl push c

def popReg (r : Reg) : Cpu := c.drop.setReg r c.top

def popRegs (rs : List Reg) : Cpu := rs.foldl popReg c

/-- The `n` words on top of the stack. -/
def stack (n : Nat) : List Word :=
  (List.range n).map fun i => read32 c.mem (c.esp + BitVec.ofNat 32 (4 * i))

end Cpu

inductive Instr
  | pushImm (v : BitVec 8)
  | pushReg (r : Reg)
  | pusha
  | pop (r : Reg)
  | popa
  -- a word register is the low half of its register
  | movFromSeg (r : Reg) (s : Seg)
  | movToSeg (s : Seg) (r : Reg)
  | movImm16 (r : Reg) (v : BitVec 16)
  | load8 (r base : Reg) (offset : Word)
  | load16 (r base : Reg) (offset : Word)
  | load32 (r base : Reg) (offset : Word)
  | addImm (r : Reg) (v : BitVec 8)
  | cld
  -- `out dx, al`, `in al, dx` and their wider forms
  | out8
  | out16
  | out32
  | in8
  | in16
  | in32
  | lgdt (base : Reg)
  | lidt (base : Reg)
  -- a jump to the next instruction that loads `cs`
  | farJump (selector : BitVec 16)
  -- `back` is where the next instruction stands
  | call (back : Word) (routine : Cpu → Cpu)
  | ret
  | iret

namespace Cpu

variable (c : Cpu)

def address (base : Reg) (offset : Word) : Word := c.regs base + offset

def dx : BitVec 16 := (c.regs .edx).extractLsb' 0 16

def transfer (t : Transfer) : Cpu := { c with transfers := c.transfers ++ [t] }

-- what `lgdt` and `lidt` load
def readTable (a : Word) : TableRegister :=
  { limit := read16 c.mem a, base := read32 c.mem (a + 2) }

-- the status flags of `v + w`
def addFlags (v w : Word) : Word :=
  let sum := v + w
  let flag (bit : Nat) (set : Bool) : Word := if set then 1 <<< bit else 0
  let parity := (List.range 8).foldl (fun p i => p ^^ sum.getLsbD i) true
  c.eflags &&& ~~~0x8D5#32 ||| flag 0 (v.toNat + w.toNat ≥ 4294967296) ||| flag 2 parity |||
    flag 4 (v.toNat % 16 + w.toNat % 16 ≥ 16) ||| flag 6 (sum = 0) ||| flag 7 sum.msb |||
    flag 11 (v.msb = w.msb ∧ sum.msb ≠ v.msb)

-- code that runs straight on does not need `eip`, which is followed over `ret` and `iret` only
def exec : Instr → Cpu
  | .pushImm v => c.push (v.signExtend 32)
  | .pushReg r => c.push (c.regs r)
  | .pusha => c.pushAll
      [c.regs .eax, c.regs .ecx, c.regs .edx, c.regs .ebx, c.esp, c.regs .ebp, c.regs .esi,
        c.regs .edi]
  | .pop r => c.popReg r
  -- the word for `esp` is skipped
  | .popa => (c.popRegs [.edi, .esi, .ebp]).drop.popRegs [.ebx, .edx, .ecx, .eax]
  | .movFromSeg r s => c.setReg r (setLow (c.regs r) (c.segs s))
  | .movToSeg s r => c.setSeg s ((c.regs r).extractLsb' 0 16)
  | .movImm16 r v => c.setReg r (setLow (c.regs r) v)
  | .load8 r base offset => c.setReg r (setByte (c.regs r) (c.mem (c.address base offset)))
  | .load16 r base offset => c.setReg r (setLow (c.regs r) (read16 c.mem (c.address base offset)))
  | .load32 r base offset => c.setReg r (read32 c.mem (c.address base offset))
  | .addImm r v =>
    { c with
      regs := Function.update c.regs r (c.regs r + v.signExtend 32)
      eflags := c.addFlags (c.regs r) (v.signExtend 32) }
  -- the direction flag
  | .cld => { c with eflags := c.eflags &&& ~~~0x400#32 }
  | .out8 => c.transfer (.out8 c.dx ((c.regs .eax).extractLsb' 0 8))
  | .out16 => c.transfer (.out16 c.dx ((c.regs .eax).extractLsb' 0 16))
  | .out32 => c.transfer (.out32 c.dx (c.regs .eax))
  | .in8 => (c.setReg .eax (setByte (c.regs .eax) ((c.device c.dx).extractLsb' 0 8))).transfer
      (.in8 c.dx)
  | .in16 => (c.setReg .eax (setLow (c.regs .eax) ((c.device c.dx).extractLsb' 0 16))).transfer
      (.in16 c.dx)
  | .in32 => (c.setReg .eax (c.device c.dx)).transfer (.in32 c.dx)
  | .lgdt base => { c with gdtr := c.readTable (c.regs base) }
  | .lidt base => { c with idtr := c.readTable (c.regs base) }
  | .farJump selector => c.setSeg .cs selector
  -- the routine ends with `ret`
  | .call back routine => routine (c.push back)
  | .ret => { c.drop with eip := c.top }
  | .iret =>
    let code := c.drop
    let flags := code.drop
    { flags.drop with
      eip := c.top
      segs := Function.update c.segs .cs (code.top.extractLsb' 0 16)
      eflags := flags.top }

def run (code : List Instr) : Cpu := code.foldl exec c

/-- An interrupt gate is entered at the privilege level of the code that is interrupted. -/
def interrupt (selector : BitVec 16) (offset : Word) (errorCode : Option Word) : Cpu :=
  let c' := c.pushAll ([c.eflags, (c.segs .cs).setWidth 32, c.eip] ++ errorCode.toList)
  { c' with
    segs := Function.update c'.segs .cs selector
    eip := offset
    -- `TF`, `IF`, `NT`, `RF` and `VM`
    eflags := c'.eflags &&& ~~~0x34300#32 }

end Cpu

/-- The bytes below `top`, as many as `n`. -/
def Below (top : Word) (n : Nat) : Set Word := {a | (top - 1 - a).toNat < n}

/-- The bytes from `base` on, as many as `n`. -/
def Above (base : Word) (n : Nat) : Set Word := {a | (a - base).toNat < n}

/--
A routine that keeps to the calling convention of C and returns. It writes to `owned`, to its
argument and below it.
-/
structure Cdecl (routine : Cpu → Cpu) (owned : Set Word) (depth : Nat) : Prop where
  eip : ∀ c, (routine c).eip = c.top
  esp : ∀ c, (routine c).esp = c.esp + 4
  saved : ∀ c, ∀ r ∈ [Reg.ebx, .ebp, .esi, .edi], (routine c).regs r = c.regs r
  segs : ∀ c, (routine c).segs = c.segs
  tables : ∀ c, (routine c).gdtr = c.gdtr ∧ (routine c).idtr = c.idtr
  frame : ∀ c, Set.EqOn (routine c).mem c.mem (owned ∪ Below (c.esp + 8) (depth + 8))ᶜ

variable {m m' : Memory} {a b v x : Word} {c : Cpu} {n : Nat}

theorem mem_below : x ∈ Below a n ↔ (a - 1 - x).toNat < n := Iff.rfl

theorem mem_above : x ∈ Above a n ↔ (x - a).toNat < n := Iff.rfl

/-! ## Words in memory -/

theorem append_bytes (v : Word) : (v.extractLsb' 24 8 ++ v.extractLsb' 16 8) ++
    (v.extractLsb' 8 8 ++ v.extractLsb' 0 8) = v := by
  apply BitVec.eq_of_getLsbD_eq
  intro i lt
  simp only [BitVec.getLsbD_append, BitVec.getLsbD_extractLsb']
  grind

theorem read32_write32 (m : Memory) (a v : Word) : read32 (write32 m a v) a = v := by
  have three : a + 2 + 1 = a + 3 := by bv_omega
  have h1 : a + 1 ≠ a := by bv_omega
  have h2 : a + 2 ≠ a ∧ a + 2 ≠ a + 1 := by constructor <;> bv_omega
  have h3 : a + 3 ≠ a ∧ a + 3 ≠ a + 1 ∧ a + 3 ≠ a + 2 := by refine ⟨?_, ?_, ?_⟩ <;> bv_omega
  simp only [read32, read16, write32, three, h1, h2.1, h2.2, h3.1, h3.2.1, h3.2.2, if_true, if_false]
  exact append_bytes v

theorem read16_read32 (m : Memory) (a : Word) : (read32 m a).extractLsb' 0 16 = read16 m a := by
  apply BitVec.eq_of_getLsbD_eq
  intro i lt
  simp only [read32, BitVec.getLsbD_append, BitVec.getLsbD_extractLsb']
  grind

theorem read8_read32 (m : Memory) (a : Word) : (read32 m a).extractLsb' 0 8 = m a := by
  apply BitVec.eq_of_getLsbD_eq
  intro i lt
  simp only [read32, read16, BitVec.getLsbD_append, BitVec.getLsbD_extractLsb']
  grind

theorem setLow_high (v : Word) (low : BitVec 16) :
    (setLow v low).extractLsb' 16 16 = v.extractLsb' 16 16 := by
  apply BitVec.eq_of_getLsbD_eq
  intro i lt
  simp only [setLow, BitVec.getLsbD_append, BitVec.getLsbD_extractLsb']
  grind

theorem setLow_halves (v : Word) : setLow v (v.extractLsb' 0 16) = v := by
  apply BitVec.eq_of_getLsbD_eq
  intro i lt
  simp only [setLow, BitVec.getLsbD_append, BitVec.getLsbD_extractLsb']
  grind

theorem setByte_low (v : Word) (low : BitVec 8) : (setByte v low).extractLsb' 0 8 = low := by
  apply BitVec.eq_of_getLsbD_eq
  intro i lt
  simp only [setByte, BitVec.getLsbD_append, BitVec.getLsbD_extractLsb']
  grind

theorem setLow_low (v : Word) (low : BitVec 16) : (setLow v low).extractLsb' 0 16 = low := by
  apply BitVec.eq_of_getLsbD_eq
  intro i lt
  simp only [setLow, BitVec.getLsbD_append, BitVec.getLsbD_extractLsb']
  grind

theorem setWidth_low (v : BitVec 16) : (v.setWidth 32).extractLsb' 0 16 = v := by
  apply BitVec.eq_of_getLsbD_eq
  intro i lt
  simp only [BitVec.getLsbD_extractLsb', BitVec.getLsbD_setWidth]
  grind

theorem write32_frame (m : Memory) (a v : Word) : Set.EqOn (write32 m a v) m (Above a 4)ᶜ := by
  intro x outside
  have far : ¬ (x - a).toNat < 4 := outside
  have h0 : x ≠ a := by rintro rfl; apply far; bv_omega
  have h1 : x ≠ a + 1 := by rintro rfl; apply far; bv_omega
  have h2 : x ≠ a + 2 := by rintro rfl; apply far; bv_omega
  have h3 : x ≠ a + 3 := by rintro rfl; apply far; bv_omega
  simp only [write32, h0, h1, h2, h3, if_false]

theorem read32_congr (same : Set.EqOn m' m (Above a 4)) : read32 m' a = read32 m a := by
  have h0 : m' a = m a := same (show (a - a).toNat < 4 by bv_omega)
  have h1 : m' (a + 1) = m (a + 1) := same (show (a + 1 - a).toNat < 4 by bv_omega)
  have h2 : m' (a + 2) = m (a + 2) := same (show (a + 2 - a).toNat < 4 by bv_omega)
  have h3 : m' (a + 2 + 1) = m (a + 2 + 1) := same (show (a + 2 + 1 - a).toNat < 4 by bv_omega)
  simp only [read32, read16, h0, h1, h2, h3]

/-! ## The stack -/

namespace Cpu

@[simp] theorem setReg_same (c : Cpu) (r : Reg) (v : Word) : (c.setReg r v).regs r = v :=
  Function.update_self _ _ _

@[simp] theorem setReg_other (c : Cpu) {r q : Reg} (v : Word) (other : q ≠ r) :
    (c.setReg r v).regs q = c.regs q := Function.update_of_ne other _ _

@[simp] theorem setReg_segs (c : Cpu) (r : Reg) (v : Word) : (c.setReg r v).segs = c.segs := rfl

@[simp] theorem setReg_mem (c : Cpu) (r : Reg) (v : Word) : (c.setReg r v).mem = c.mem := rfl

@[simp] theorem setReg_device (c : Cpu) (r : Reg) (v : Word) :
    (c.setReg r v).device = c.device := rfl

@[simp] theorem setReg_transfers (c : Cpu) (r : Reg) (v : Word) :
    (c.setReg r v).transfers = c.transfers := rfl

@[simp] theorem transfer_transfers (c : Cpu) (t : Transfer) :
    (c.transfer t).transfers = c.transfers ++ [t] := rfl

@[simp] theorem transfer_regs (c : Cpu) (t : Transfer) : (c.transfer t).regs = c.regs := rfl

theorem ret_transfers (c : Cpu) : (c.exec .ret).transfers = c.transfers := rfl

theorem ret_regs (c : Cpu) {r : Reg} (other : r ≠ .esp) : (c.exec .ret).regs r = c.regs r :=
  Function.update_of_ne other _ _

@[simp] theorem setSeg_regs (c : Cpu) (s : Seg) (v : BitVec 16) : (c.setSeg s v).regs = c.regs :=
  rfl

@[simp] theorem setSeg_same (c : Cpu) (s : Seg) (v : BitVec 16) : (c.setSeg s v).segs s = v :=
  Function.update_self _ _ _

@[simp] theorem setSeg_other (c : Cpu) {s t : Seg} (v : BitVec 16) (other : t ≠ s) :
    (c.setSeg s v).segs t = c.segs t := Function.update_of_ne other _ _

@[simp] theorem push_regs (c : Cpu) (v : Word) {r : Reg} (other : r ≠ .esp) :
    (c.push v).regs r = c.regs r := Function.update_of_ne other _ _

@[simp] theorem push_segs (c : Cpu) (v : Word) : (c.push v).segs = c.segs := rfl

@[simp] theorem setReg_esp (v : Word) : (c.setReg .esp v).esp = v := by simp [esp, setReg]

@[simp] theorem push_esp (c : Cpu) (v : Word) : (c.push v).esp = c.esp - 4 := by
  simp [esp, push]

@[simp] theorem drop_esp (c : Cpu) : c.drop.esp = c.esp + 4 := setReg_esp _

theorem stack_congr {c' : Cpu} (esp : c'.esp = c.esp) (few : n ≤ 1073741824)
    (same : Set.EqOn c'.mem c.mem (Above c.esp (4 * n))) : c'.stack n = c.stack n := by
  unfold stack
  rw [esp]
  apply List.map_congr_left
  intro i member
  have within := List.mem_range.mp member
  refine read32_congr (same.mono ?_)
  intro x inside
  simp only [mem_above] at inside ⊢
  bv_omega

theorem stack_push (c : Cpu) (v : Word) (few : n < 1073741823) :
    (c.push v).stack (n + 1) = v :: c.stack n := by
  unfold stack
  rw [List.range_succ_eq_map, List.map_cons, List.map_map, push_esp]
  refine congrArg₂ List.cons ?_ (List.map_congr_left fun i member => ?_)
  · rw [show c.esp - 4 + BitVec.ofNat 32 (4 * 0) = c.esp - 4 by bv_omega]
    exact read32_write32 c.mem (c.esp - 4) v
  · have within := List.mem_range.mp member
    have place : c.esp - 4 + BitVec.ofNat 32 (4 * (i + 1)) = c.esp + BitVec.ofNat 32 (4 * i) := by
      bv_omega
    change read32 (write32 c.mem (c.esp - 4) v) (c.esp - 4 + BitVec.ofNat 32 (4 * (i + 1))) = _
    rw [place]
    refine read32_congr ((write32_frame c.mem (c.esp - 4) v).mono ?_)
    intro x inside near
    simp only [mem_above] at inside near
    bv_omega

theorem stack_drop (c : Cpu) (n : Nat) : c.stack (n + 1) = c.top :: c.drop.stack n := by
  unfold stack
  rw [List.range_succ_eq_map, List.map_cons, List.map_map, drop_esp]
  refine congrArg₂ List.cons ?_ (List.map_congr_left fun i member => ?_)
  · rw [show c.esp + BitVec.ofNat 32 (4 * 0) = c.esp by bv_omega]
    rfl
  · have place : c.esp + BitVec.ofNat 32 (4 * (i + 1)) = c.esp + 4 + BitVec.ofNat 32 (4 * i) := by
      bv_omega
    change read32 c.mem (c.esp + BitVec.ofNat 32 (4 * (i + 1))) = _
    rw [place]
    rfl

theorem push_frame (c : Cpu) (v : Word) : Set.EqOn (c.push v).mem c.mem (Below c.esp 4)ᶜ := by
  refine (write32_frame c.mem (c.esp - 4) v).mono (Set.compl_subset_compl.mpr ?_)
  intro x inside
  simp only [mem_above, mem_below] at inside ⊢
  bv_omega

end Cpu

theorem below_push {top : Word} (few : n + 4 ≤ 4294967296)
    (inside : x ∈ Below (top - 4) n ∨ x ∈ Below top 4) : x ∈ Below top (n + 4) := by
  simp only [mem_below] at inside ⊢
  bv_omega

namespace Cpu

theorem pushAll_esp (c : Cpu) (vs : List Word) :
    (c.pushAll vs).esp = c.esp - BitVec.ofNat 32 (4 * vs.length) := by
  induction vs generalizing c with
  | nil => simp [pushAll]
  | cons v vs ih =>
    change ((c.push v).pushAll vs).esp = _
    rw [ih, push_esp, List.length_cons]
    bv_omega

theorem pushAll_stack (c : Cpu) (vs : List Word)
    (few : vs.length + n < 1073741824) : (c.pushAll vs).stack (vs.length + n) =
      vs.reverse ++ c.stack n := by
  induction vs generalizing c n with
  | nil => simp [pushAll]
  | cons v vs ih =>
    rw [List.length_cons] at few
    change ((c.push v).pushAll vs).stack (vs.length + 1 + n) = _
    rw [show vs.length + 1 + n = vs.length + (n + 1) by omega, ih (c.push v) (by omega),
      stack_push c v (by omega), List.reverse_cons, List.append_assoc]
    rfl

theorem pushAll_frame (c : Cpu) (vs : List Word) (few : 4 * vs.length ≤ 4294967296) :
    Set.EqOn (c.pushAll vs).mem c.mem (Below c.esp (4 * vs.length))ᶜ := by
  induction vs generalizing c with
  | nil => exact fun _ _ => rfl
  | cons v vs ih =>
    rw [List.length_cons] at few ⊢
    have later := ih (c.push v) (by omega)
    rw [push_esp] at later
    refine (later.mono ?_).trans ((push_frame c v).mono ?_)
    · exact fun x outside inside => outside (below_push (by omega) (Or.inl inside))
    · exact fun x outside inside => outside (below_push (by omega) (Or.inr inside))

-- nothing else is changed by pushing
theorem pushAll_eq (c : Cpu) (vs : List Word) : c.pushAll vs = { c with
    regs := Function.update c.regs .esp (c.pushAll vs).esp
    mem := (c.pushAll vs).mem } := by
  induction vs generalizing c with
  | nil =>
    change c = { c with regs := Function.update c.regs .esp (c.regs .esp) }
    rw [Function.update_eq_self]
  | cons v vs ih =>
    change (c.push v).pushAll vs = { c with
      regs := Function.update c.regs .esp ((c.push v).pushAll vs).esp
      mem := ((c.push v).pushAll vs).mem }
    rw [ih (c.push v)]
    simp [push, esp]

@[simp] theorem pushAll_regs (c : Cpu) (words : List Word) {r : Reg} (other : r ≠ .esp) :
    (c.pushAll words).regs r = c.regs r := by
  rw [pushAll_eq]
  exact Function.update_of_ne other _ _

@[simp] theorem pushAll_segs (c : Cpu) (words : List Word) :
    (c.pushAll words).segs = c.segs := by
  rw [pushAll_eq]

/-! ## Code -/

@[simp] theorem run_nil (c : Cpu) : c.run [] = c := rfl

@[simp] theorem run_cons (c : Cpu) (i : Instr) (code : List Instr) :
    c.run (i :: code) = (c.exec i).run code := rfl

@[simp] theorem run_append (c : Cpu) (code rest : List Instr) :
    c.run (code ++ rest) = (c.run code).run rest := by
  simp [run]

theorem run_pushImm (c : Cpu) (bytes : List (BitVec 8)) :
    c.run (bytes.map .pushImm) = c.pushAll (bytes.map (BitVec.signExtend 32)) := by
  induction bytes generalizing c with
  | nil => rfl
  | cons byte bytes ih => exact ih (c.push (byte.signExtend 32))

theorem exec_movToSeg (c : Cpu) (s : Seg) (r : Reg) :
    c.exec (.movToSeg s r) = c.setSeg s ((c.regs r).extractLsb' 0 16) := rfl

theorem stack_same {e : Cpu} (esp : e.esp = c.esp) (mem : e.mem = c.mem) :
    e.stack n = c.stack n := by
  unfold Cpu.stack
  rw [esp, mem]

-- the stack does not depend on the other registers
theorem stack_setReg {r : Reg} (other : r ≠ .esp) (v : Word) :
    (c.setReg r v).stack n = c.stack n :=
  stack_same (Function.update_of_ne other.symm _ _) rfl

/-- `e` is `c` with the words pushed, and possibly other registers. -/
structure Pushed (words : List Word) (c e : Cpu) : Prop where
  few : words.length < 1024
  esp : e.esp = c.esp - BitVec.ofNat 32 (4 * words.length)
  stack : ∀ n, words.length + n < 1073741824 →
    e.stack (words.length + n) = words.reverse ++ c.stack n
  tables : e.gdtr = c.gdtr ∧ e.idtr = c.idtr
  frame : Set.EqOn e.mem c.mem (Below c.esp (4 * words.length))ᶜ

theorem pushAll_pushed (c : Cpu) {words : List Word} (few : words.length < 1024) :
    Pushed words c (c.pushAll words) where
  few := few
  esp := pushAll_esp c words
  stack n bound := pushAll_stack c words bound
  tables := by
    rw [pushAll_eq]
    exact ⟨rfl, rfl⟩
  frame := pushAll_frame c words (by omega)

namespace Pushed

variable {d e : Cpu} {words more : List Word}

-- an instruction that leaves the stack alone pushes nothing
theorem same (esp : e.esp = c.esp) (mem : e.mem = c.mem)
    (tables : e.gdtr = c.gdtr ∧ e.idtr = c.idtr) : Pushed [] c e where
  few := by simp
  esp := by simp [esp]
  stack n _ := by simpa using stack_same esp mem
  tables := tables
  frame _ _ := by rw [mem]

theorem trans (first : Pushed words c d) (second : Pushed more d e)
    (few : (words ++ more).length < 1024) : Pushed (words ++ more) c e := by
  rw [List.length_append] at few
  constructor
  case few => rwa [List.length_append]
  case esp =>
    rw [second.esp, first.esp, List.length_append]
    bv_omega
  case stack =>
    intro n bound
    rw [List.length_append] at bound ⊢
    rw [show words.length + more.length + n = more.length + (words.length + n) by omega,
      second.stack _ (by omega), first.stack n (by omega), List.reverse_append, List.append_assoc]
  case tables =>
    exact ⟨second.tables.1.trans first.tables.1, second.tables.2.trans first.tables.2⟩
  case frame =>
    rw [List.length_append]
    have later := second.frame
    rw [first.esp] at later
    refine (later.mono ?_).trans (first.frame.mono ?_)
    · intro x outside inside
      apply outside
      rw [mem_below] at inside ⊢
      bv_omega
    · intro x outside inside
      apply outside
      rw [mem_below] at inside ⊢
      omega

theorem push (first : Pushed words c d) (v : Word) (few : words.length < 1023) :
    Pushed (words ++ [v]) c (d.push v) :=
  first.trans (pushAll_pushed d (show [v].length < 1024 by simp)) (by simp; omega)

theorem setReg (first : Pushed words c d) {r : Reg} (other : r ≠ .esp) (v : Word) :
    Pushed words c (d.setReg r v) := by
  have second : Pushed [] d (d.setReg r v) :=
    same (Function.update_of_ne other.symm ..) rfl ⟨rfl, rfl⟩
  have both := first.trans second (by simpa using first.few)
  rwa [List.append_nil] at both

theorem setSeg (first : Pushed words c d) (s : Seg) (v : BitVec 16) :
    Pushed words c (d.setSeg s v) := by
  have second : Pushed [] d (d.setSeg s v) := same rfl rfl ⟨rfl, rfl⟩
  have both := first.trans second (by simpa using first.few)
  rwa [List.append_nil] at both

theorem setFlags (first : Pushed words c d) (flags : Word) :
    Pushed words c { d with eflags := flags } := by
  have second : Pushed [] d { d with eflags := flags } := same rfl rfl ⟨rfl, rfl⟩
  have both := first.trans second (by simpa using first.few)
  rwa [List.append_nil] at both

end Pushed

theorem interrupt_pushed (c : Cpu) (selector : BitVec 16) (offset : Word)
    (errorCode : Option Word) :
    Pushed ([c.eflags, (c.segs .cs).setWidth 32, c.eip] ++ errorCode.toList) c
      (c.interrupt selector offset errorCode) := by
  have few : ([c.eflags, (c.segs .cs).setWidth 32, c.eip] ++ errorCode.toList).length < 1024 := by
    cases errorCode <;> simp
  have pushed := pushAll_pushed c few
  have second : Pushed [] (c.pushAll ([c.eflags, (c.segs .cs).setWidth 32, c.eip] ++
      errorCode.toList)) (c.interrupt selector offset errorCode) := Pushed.same rfl rfl ⟨rfl, rfl⟩
  have both := pushed.trans second (by simpa using few)
  rwa [List.append_nil] at both

theorem interrupt_regs (c : Cpu) (selector : BitVec 16) (offset : Word)
    (errorCode : Option Word) {r : Reg} (other : r ≠ .esp) :
    (c.interrupt selector offset errorCode).regs r = c.regs r := pushAll_regs c _ other

theorem interrupt_segs (c : Cpu) (selector : BitVec 16) (offset : Word)
    (errorCode : Option Word) {s : Seg} (other : s ≠ .cs) :
    (c.interrupt selector offset errorCode).segs s = c.segs s := by
  change Function.update (c.pushAll _).segs .cs selector s = _
  rw [Function.update_of_ne other, pushAll_segs]

/-! ## Pops -/

theorem pop_stack {r : Reg} {vs : List Word} (other : r ≠ .esp)
    (stack : c.stack (n + 1) = v :: vs) :
    c.popReg r = c.drop.setReg r v ∧ (c.popReg r).stack n = vs := by
  rw [stack_drop] at stack
  obtain ⟨top, rest⟩ := List.cons.inj stack
  rw [← rest]
  exact ⟨by rw [popReg, top], stack_setReg other c.top⟩

theorem popReg_esp {r : Reg} (other : r ≠ .esp) : (c.popReg r).esp = c.esp + 4 := by
  rw [← drop_esp]
  exact Function.update_of_ne other.symm _ _

-- two words are taken from the stack, and the flags are lost
theorem addEsp_stack {v w : Word} {ws : List Word} (stack : c.stack (n + 1 + 1) = v :: w :: ws) :
    (c.exec (.addImm .esp 8)).stack n = ws ∧ (c.exec (.addImm .esp 8)).esp = c.esp + 8 ∧
      (∀ r, r ≠ .esp → (c.exec (.addImm .esp 8)).regs r = c.regs r) ∧
      ∃ flags, c.exec (.addImm .esp 8) = { c with
        regs := (c.exec (.addImm .esp 8)).regs, eflags := flags } := by
  have shape : c.exec (.addImm .esp 8) = { c with
      regs := Function.update c.regs .esp (c.esp + 8)
      eflags := c.addFlags c.esp 8 } := rfl
  rw [shape]
  generalize c.addFlags c.esp 8 = flags
  have height : Cpu.esp { c with regs := Function.update c.regs .esp (c.esp + 8)
                                 eflags := flags } = c.esp + 8 := by simp [esp]
  refine ⟨?_, height, fun r ne => Function.update_of_ne ne _ _, flags, rfl⟩
  rw [stack_drop, stack_drop] at stack
  simp only [List.cons.injEq] at stack
  obtain ⟨-, -, rest⟩ := stack
  rw [← rest]
  unfold Cpu.stack
  rw [height, drop_esp, drop_esp, show c.esp + 4 + 4 = c.esp + 8 by bv_omega]
  rfl

/-- The registers are those of the words popped, and what is not popped is as before. -/
theorem popRegs_stack {rs : List Reg} {vs ws : List Word} (nodup : (Reg.esp :: rs).Nodup)
    (length : vs.length = rs.length) (stack : c.stack (rs.length + n) = vs ++ ws) :
    (c.popRegs rs).stack n = ws ∧
      (c.popRegs rs).esp = c.esp + BitVec.ofNat 32 (4 * rs.length) ∧
      (∀ p ∈ rs.zip vs, (c.popRegs rs).regs p.1 = p.2) ∧
      (∀ r ∉ Reg.esp :: rs, (c.popRegs rs).regs r = c.regs r) ∧
      c.popRegs rs = { c with regs := (c.popRegs rs).regs } := by
  induction rs generalizing c vs with
  | nil =>
    obtain rfl := List.eq_nil_of_length_eq_zero length
    exact ⟨by simpa [popRegs] using stack, by simp [popRegs], by simp, fun _ _ => rfl, rfl⟩
  | cons r rs ih =>
    obtain ⟨v, vs, rfl⟩ := List.exists_cons_of_length_eq_add_one length
    simp only [List.nodup_cons, List.mem_cons, not_or] at nodup
    obtain ⟨⟨other, esp⟩, fresh, nodup⟩ := nodup
    rw [List.length_cons, Nat.add_right_comm, List.cons_append] at stack
    obtain ⟨first, rest⟩ := pop_stack (Ne.symm other) stack
    obtain ⟨left, height, popped, kept, same⟩ := ih (List.nodup_cons.mpr ⟨esp, nodup⟩)
      (by simpa using length) rest
    change ((c.popReg r).popRegs rs).stack n = ws ∧
      ((c.popReg r).popRegs rs).esp = _ ∧
      (∀ p ∈ (r :: rs).zip (v :: vs), ((c.popReg r).popRegs rs).regs p.1 = p.2) ∧
      (∀ q ∉ Reg.esp :: r :: rs, ((c.popReg r).popRegs rs).regs q = c.regs q) ∧
      (c.popReg r).popRegs rs = { c with regs := ((c.popReg r).popRegs rs).regs }
    refine ⟨left, ?_, ?_, ?_, same⟩
    · rw [height, popReg_esp (Ne.symm other), List.length_cons]
      bv_omega
    · intro p member
      rw [List.zip_cons_cons, List.mem_cons] at member
      cases member with
      | inl here =>
        subst here
        rw [kept r (by simp [Ne.symm other, fresh]), first]
        exact Function.update_self ..
      | inr later => exact popped p later
    · intro q out
      simp only [List.mem_cons, not_or] at out
      rw [kept q (by simp [out]), first]
      simp [setReg, drop, out]

-- the registers in the order in which `popa` takes them
def popaOrder : List Reg := [.edi, .esi, .ebp, .esp, .ebx, .edx, .ecx, .eax]

theorem popa_stack {saved : Reg → Word} {ws : List Word}
    (stack : c.stack (8 + n) = popaOrder.map saved ++ ws) :
    (c.exec .popa).stack n = ws ∧ (c.exec .popa).esp = c.esp + 32 ∧
      (∀ r, r ≠ .esp → (c.exec .popa).regs r = saved r) ∧
      c.exec .popa = { c with regs := (c.exec .popa).regs } := by
  change ((c.popRegs [.edi, .esi, .ebp]).drop.popRegs [.ebx, .edx, .ecx, .eax]).stack n = ws ∧
    ((c.popRegs [.edi, .esi, .ebp]).drop.popRegs [.ebx, .edx, .ecx, .eax]).esp = c.esp + 32 ∧
    (∀ r, r ≠ .esp → ((c.popRegs [.edi, .esi, .ebp]).drop.popRegs
      [.ebx, .edx, .ecx, .eax]).regs r = saved r) ∧
    (c.popRegs [.edi, .esi, .ebp]).drop.popRegs [.ebx, .edx, .ecx, .eax] = { c with
      regs := ((c.popRegs [.edi, .esi, .ebp]).drop.popRegs [.ebx, .edx, .ecx, .eax]).regs }
  obtain ⟨left, height, popped, -, same⟩ := popRegs_stack
    (show [Reg.esp, .edi, .esi, .ebp].Nodup by decide)
    (show [saved .edi, saved .esi, saved .ebp].length = [Reg.edi, .esi, .ebp].length from rfl)
    (show c.stack (3 + (5 + n)) = _ ++ (saved .esp :: saved .ebx :: saved .edx :: saved .ecx ::
      saved .eax :: ws) by rw [← Nat.add_assoc, stack]; rfl)
  rw [Nat.add_comm 5 n, stack_drop] at left
  obtain ⟨-, rest⟩ := List.cons.inj left
  obtain ⟨left', height', popped', kept', same'⟩ := popRegs_stack
    (show [Reg.esp, .ebx, .edx, .ecx, .eax].Nodup by decide)
    (show [saved .ebx, saved .edx, saved .ecx, saved .eax].length =
      [Reg.ebx, .edx, .ecx, .eax].length from rfl)
    (show (c.popRegs [.edi, .esi, .ebp]).drop.stack (4 + n) = _ ++ ws by
      rw [Nat.add_comm 4 n, rest]; rfl)
  have middle {r : Reg} (other : r ≠ .esp) : (c.popRegs [.edi, .esi, .ebp]).drop.regs r =
      (c.popRegs [.edi, .esi, .ebp]).regs r := Function.update_of_ne other _ _
  refine ⟨left', ?_, ?_, ?_⟩
  · rw [height', drop_esp, height]
    simp only [List.length_cons, List.length_nil]
    bv_omega
  · intro r other
    cases r with
    | esp => exact absurd rfl other
    | eax => exact popped' (.eax, _) (by simp)
    | ecx => exact popped' (.ecx, _) (by simp)
    | edx => exact popped' (.edx, _) (by simp)
    | ebx => exact popped' (.ebx, _) (by simp)
    | ebp => rw [kept' .ebp (by decide), middle other]; exact popped (.ebp, _) (by simp)
    | esi => rw [kept' .esi (by decide), middle other]; exact popped (.esi, _) (by simp)
    | edi => rw [kept' .edi (by decide), middle other]; exact popped (.edi, _) (by simp)
  · generalize c.popRegs [.edi, .esi, .ebp] = d at same same' ⊢
    generalize d.drop.popRegs [.ebx, .edx, .ecx, .eax] = e at same' ⊢
    calc e = { d with regs := e.regs } := same'
      _ = { c with regs := e.regs } := by rw [same]

theorem iret_stack {eip cs eflags : Word} {ws : List Word}
    (stack : c.stack (n + 1 + 1 + 1) = eip :: cs :: eflags :: ws) :
    (c.exec .iret).stack n = ws ∧ c.exec .iret = { c with
      regs := Function.update c.regs .esp (c.esp + 12)
      segs := Function.update c.segs .cs (cs.extractLsb' 0 16)
      eip := eip
      eflags := eflags } := by
  rw [stack_drop, stack_drop, stack_drop] at stack
  simp only [List.cons.injEq] at stack
  obtain ⟨first, second, third, rest⟩ := stack
  refine ⟨rest, ?_⟩
  have height : c.drop.drop.drop.esp = c.esp + 12 := by
    rw [drop_esp, drop_esp, drop_esp]
    bv_omega
  have regs : c.drop.drop.drop.regs = Function.update c.regs .esp (c.esp + 12) := by
    rw [← height]
    simp [drop, setReg, esp]
  have returned : c.exec .iret = { c with
      regs := c.drop.drop.drop.regs
      segs := Function.update c.segs .cs (c.drop.top.extractLsb' 0 16)
      eip := c.top
      eflags := c.drop.drop.top } := rfl
  rw [returned, first, second, third, regs]

end Cpu

/-! ## Calls -/

open Cpu

theorem Cdecl.call_esp {routine : Cpu → Cpu} {owned : Set Word} {depth : Nat}
    (cdecl : Cdecl routine owned depth) (c : Cpu) (back : Word) :
    (c.exec (.call back routine)).esp = c.esp := by
  change (routine (c.push back)).esp = c.esp
  rw [cdecl.esp, push_esp]
  bv_omega

theorem Cdecl.call_frame {routine : Cpu → Cpu} {owned : Set Word} {depth : Nat}
    (cdecl : Cdecl routine owned depth) (c : Cpu) (back : Word) (few : depth + 8 ≤ 4294967296) :
    Set.EqOn (c.exec (.call back routine)).mem c.mem (owned ∪ Below (c.esp + 4) (depth + 8))ᶜ := by
  change Set.EqOn (routine (c.push back)).mem c.mem _
  have frame := cdecl.frame (c.push back)
  rw [push_esp, show c.esp - 4 + 8 = c.esp + 4 by bv_omega] at frame
  refine frame.trans ((push_frame c back).mono ?_)
  intro x outside below
  apply outside
  right
  rw [mem_below] at below ⊢
  bv_omega

-- the caller finds its stack as it was, but for the argument on top
theorem Cdecl.stack {routine : Cpu → Cpu} {owned : Set Word} {depth : Nat}
    (cdecl : Cdecl routine owned depth) (back : Word) (few : depth + 4 * n + 8 ≤ 4294967296)
    (apart : Disjoint owned (Above (c.esp + 4) (4 * n))) :
    (c.exec (.call back routine)).drop.stack n = c.drop.stack n := by
  refine stack_congr (by rw [drop_esp, drop_esp, cdecl.call_esp]) (by omega) ?_
  rw [drop_esp]
  refine (cdecl.call_frame c back (by omega)).mono ?_
  rintro x inside (inOwned | below)
  · exact Set.disjoint_left.mp apart inOwned inside
  · rw [mem_below] at below
    rw [mem_above] at inside
    bv_omega

/-! ## Leaf routines -/

-- what a routine may do that neither stores nor calls
def Leaf : Instr → Prop
  | .load8 r _ _ | .load16 r _ _ | .load32 r _ _ => r ∈ [Reg.eax, .ecx, .edx]
  | .out8 | .out16 | .out32 | .in8 | .in16 | .in32 => True
  | _ => False

theorem Leaf.keeps {i : Instr} (leaf : Leaf i) (c : Cpu) :
    (∀ r ∉ [Reg.eax, .ecx, .edx], (c.exec i).regs r = c.regs r) ∧
      c.exec i = { c with regs := (c.exec i).regs, transfers := (c.exec i).transfers } := by
  have set {r : Reg} (v : Word) (scratch : r ∈ [Reg.eax, .ecx, .edx]) {q : Reg}
      (kept : q ∉ [Reg.eax, .ecx, .edx]) : (c.setReg r v).regs q = c.regs q := by
    refine setReg_other c v ?_
    rintro rfl
    exact kept scratch
  cases i with
  | load8 r base offset => exact ⟨fun q kept => set _ leaf kept, rfl⟩
  | load16 r base offset => exact ⟨fun q kept => set _ leaf kept, rfl⟩
  | load32 r base offset => exact ⟨fun q kept => set _ leaf kept, rfl⟩
  | out8 => exact ⟨fun _ _ => rfl, rfl⟩
  | out16 => exact ⟨fun _ _ => rfl, rfl⟩
  | out32 => exact ⟨fun _ _ => rfl, rfl⟩
  | in8 => exact ⟨fun q kept => set _ List.mem_cons_self kept, rfl⟩
  | in16 => exact ⟨fun q kept => set _ List.mem_cons_self kept, rfl⟩
  | in32 => exact ⟨fun q kept => set _ List.mem_cons_self kept, rfl⟩
  | _ => exact leaf.elim

theorem leaf_run {body : List Instr} (leaf : ∀ i ∈ body, Leaf i) (c : Cpu) :
    (∀ r ∉ [Reg.eax, .ecx, .edx], (c.run body).regs r = c.regs r) ∧
      c.run body = { c with regs := (c.run body).regs, transfers := (c.run body).transfers } := by
  induction body generalizing c with
  | nil => exact ⟨fun _ _ => rfl, rfl⟩
  | cons i body ih =>
    obtain ⟨kept, same⟩ := (leaf i List.mem_cons_self).keeps c
    obtain ⟨kept', same'⟩ := ih (fun j member => leaf j (List.mem_cons_of_mem _ member)) (c.exec i)
    refine ⟨fun r other => (kept' r other).trans (kept r other), ?_⟩
    rw [run_cons]
    generalize (c.exec i).run body = e at same' ⊢
    rw [same] at same'
    exact same'

theorem leaf_cdecl {code body : List Instr} (ends : code = body ++ [.ret])
    (leaf : ∀ i ∈ body, Leaf i) : Cdecl (·.run code) ∅ 0 := by
  have shape (c : Cpu) : c.run code = { (c.run body).drop with eip := (c.run body).top } := by
    rw [ends, run_append]
    rfl
  have esp (c : Cpu) : (c.run body).esp = c.esp := (leaf_run leaf c).1 .esp (by decide)
  constructor
  case eip =>
    intro c
    rw [shape]
    change read32 (c.run body).mem (c.run body).esp = c.top
    rw [esp, (leaf_run leaf c).2]
    rfl
  case esp =>
    intro c
    rw [shape]
    change (c.run body).drop.esp = _
    rw [drop_esp, esp]
  case saved =>
    intro c r member
    have other : r ≠ .esp ∧ r ∉ [Reg.eax, .ecx, .edx] := by
      simp only [List.mem_cons, List.not_mem_nil, or_false] at member
      rcases member with rfl | rfl | rfl | rfl <;> decide
    rw [shape]
    change (c.run body).drop.regs r = c.regs r
    rw [← (leaf_run leaf c).1 r other.2]
    exact setReg_other _ _ other.1
  case segs =>
    intro c
    rw [shape]
    change (c.run body).segs = c.segs
    rw [(leaf_run leaf c).2]
  case tables =>
    intro c
    rw [shape]
    change (c.run body).gdtr = c.gdtr ∧ (c.run body).idtr = c.idtr
    rw [(leaf_run leaf c).2]
    exact ⟨rfl, rfl⟩
  case frame =>
    intro c
    rw [shape]
    change Set.EqOn (c.run body).mem c.mem _
    rw [(leaf_run leaf c).2]
    exact fun _ _ => rfl

end X86
