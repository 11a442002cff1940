import GekonOS.Kernel.X86

set_option autoImplicit false

namespace GekonOS.Ports

open X86 Cpu

variable {c : Cpu} {back port data : Word}

theorem ports_cdecl : ∀ code ∈ [Asm.outportb, Asm.outportw, Asm.outportl, Asm.inportb, Asm.inportw,
    Asm.inportl], Cdecl (·.run code) ∅ 0 := by
  intro code member
  have ends : code = code.dropLast ++ [.ret] := by
    simp only [List.mem_cons, List.not_mem_nil, or_false] at member
    rcases member with rfl | rfl | rfl | rfl | rfl | rfl <;> rfl
  refine leaf_cdecl ends ?_
  simp only [List.mem_cons, List.not_mem_nil, or_false] at member
  rcases member with rfl | rfl | rfl | rfl | rfl | rfl <;>
    simp [Asm.outportb, Asm.outportw, Asm.outportl, Asm.inportb, Asm.inportw, Asm.inportl, Leaf]

-- where the arguments of a call are
theorem arguments (stack : c.stack 3 = [back, port, data]) :
    read32 c.mem (c.regs .esp + 4) = port ∧ read32 c.mem (c.regs .esp + 8) = data := by
  have words : [read32 c.mem c.esp, read32 c.mem (c.esp + 4), read32 c.mem (c.esp + 8)] =
      [back, port, data] := by
    rw [← stack]
    simp [Cpu.stack, List.range_succ]
  simp only [List.cons.injEq] at words
  exact ⟨words.2.1, words.2.2.1⟩

theorem outportb_transfers (stack : c.stack 3 = [back, port, data]) :
    (c.run Asm.outportb).transfers =
      c.transfers ++ [.out8 (port.extractLsb' 0 16) (data.extractLsb' 0 8)] := by
  obtain ⟨rfl, rfl⟩ := arguments stack
  rw [Asm.outportb, run_cons, run_cons, run_cons, run_cons, run_nil, ret_transfers]
  simp [exec, dx, address, setLow_low, setByte_low, read16_read32, read8_read32]

theorem outportw_transfers (stack : c.stack 3 = [back, port, data]) :
    (c.run Asm.outportw).transfers =
      c.transfers ++ [.out16 (port.extractLsb' 0 16) (data.extractLsb' 0 16)] := by
  obtain ⟨rfl, rfl⟩ := arguments stack
  rw [Asm.outportw, run_cons, run_cons, run_cons, run_cons, run_nil, ret_transfers]
  simp [exec, dx, address, setLow_low, read16_read32]

-- the upper half is what the caller has left in `eax`
theorem outportl_transfers (stack : c.stack 3 = [back, port, data]) :
    (c.run Asm.outportl).transfers = c.transfers ++ [.out32 (port.extractLsb' 0 16)
      (setLow (c.regs .eax) (data.extractLsb' 0 16))] := by
  obtain ⟨rfl, rfl⟩ := arguments stack
  rw [Asm.outportl, run_cons, run_cons, run_cons, run_cons, run_nil, ret_transfers]
  simp [exec, dx, address, setLow_low, read16_read32]

theorem inportb_reads (stack : c.stack 3 = [back, port, data]) :
    (c.run Asm.inportb).transfers = c.transfers ++ [.in8 (port.extractLsb' 0 16)] ∧
      ((c.run Asm.inportb).regs .eax).extractLsb' 0 8 =
        (c.device (port.extractLsb' 0 16)).extractLsb' 0 8 := by
  obtain ⟨rfl, -⟩ := arguments stack
  rw [Asm.inportb, run_cons, run_cons, run_cons, run_nil, ret_transfers,
    ret_regs _ (show Reg.eax ≠ .esp by decide)]
  simp [exec, dx, address, setLow_low, setByte_low, read16_read32]

theorem inportw_reads (stack : c.stack 3 = [back, port, data]) :
    (c.run Asm.inportw).transfers = c.transfers ++ [.in16 (port.extractLsb' 0 16)] ∧
      ((c.run Asm.inportw).regs .eax).extractLsb' 0 16 =
        (c.device (port.extractLsb' 0 16)).extractLsb' 0 16 := by
  obtain ⟨rfl, -⟩ := arguments stack
  rw [Asm.inportw, run_cons, run_cons, run_cons, run_nil, ret_transfers,
    ret_regs _ (show Reg.eax ≠ .esp by decide)]
  simp [exec, dx, address, setLow_low, read16_read32]

theorem inportl_reads (stack : c.stack 3 = [back, port, data]) :
    (c.run Asm.inportl).transfers = c.transfers ++ [.in32 (port.extractLsb' 0 16)] ∧
      (c.run Asm.inportl).regs .eax = c.device (port.extractLsb' 0 16) := by
  obtain ⟨rfl, -⟩ := arguments stack
  rw [Asm.inportl, run_cons, run_cons, run_cons, run_nil, ret_transfers,
    ret_regs _ (show Reg.eax ≠ .esp by decide)]
  simp [exec, dx, address, setLow_low, read16_read32]

/-- A function of the ports passes on what it is given and answers what the device says. -/
structure Faithful (c : Cpu) (port data : Word) : Prop where
  outb : (c.run Asm.outportb).transfers =
    c.transfers ++ [.out8 (port.extractLsb' 0 16) (data.extractLsb' 0 8)]
  outw : (c.run Asm.outportw).transfers =
    c.transfers ++ [.out16 (port.extractLsb' 0 16) (data.extractLsb' 0 16)]
  outl : (c.run Asm.outportl).transfers = c.transfers ++ [.out32 (port.extractLsb' 0 16) data]
  inb : (c.run Asm.inportb).transfers = c.transfers ++ [.in8 (port.extractLsb' 0 16)] ∧
    ((c.run Asm.inportb).regs .eax).extractLsb' 0 8 =
      (c.device (port.extractLsb' 0 16)).extractLsb' 0 8
  inw : (c.run Asm.inportw).transfers = c.transfers ++ [.in16 (port.extractLsb' 0 16)] ∧
    ((c.run Asm.inportw).regs .eax).extractLsb' 0 16 =
      (c.device (port.extractLsb' 0 16)).extractLsb' 0 16
  inl : (c.run Asm.inportl).transfers = c.transfers ++ [.in32 (port.extractLsb' 0 16)] ∧
    (c.run Asm.inportl).regs .eax = c.device (port.extractLsb' 0 16)

/--
The functions keep to the calling convention, and they transfer what they are asked to, except that
`outportl` takes the upper half of the data from the caller's `eax`.
-/
theorem ports_faithful_iff (stack : c.stack 3 = [back, port, data]) :
    (∀ code ∈ [Asm.outportb, Asm.outportw, Asm.outportl, Asm.inportb, Asm.inportw, Asm.inportl],
      Cdecl (·.run code) ∅ 0) ∧
      (Faithful c port data ↔ (c.regs .eax).extractLsb' 16 16 = data.extractLsb' 16 16) := by
  refine ⟨ports_cdecl, ?_⟩
  constructor
  · intro faithful
    have sent := (outportl_transfers stack).symm.trans faithful.outl
    have value : setLow (c.regs .eax) (data.extractLsb' 0 16) = data := by simpa using sent
    rw [← setLow_high (c.regs .eax) (data.extractLsb' 0 16), value]
  · intro upper
    have value : setLow (c.regs .eax) (data.extractLsb' 0 16) = data := by
      rw [setLow, upper]
      exact setLow_halves data
    refine ⟨outportb_transfers stack, outportw_transfers stack, ?_, inportb_reads stack,
      inportw_reads stack, inportl_reads stack⟩
    rw [outportl_transfers stack, value]

-- a caller that has left nothing in `eax`
def caller : Cpu :=
  { regs := fun _ => 0, segs := fun _ => 16, eip := 0, eflags := 2
    gdtr := { base := 0, limit := 39 }, idtr := { base := 0, limit := 2047 }
    mem := write32 (write32 (fun _ => 0) 4 0x3D4) 8 0x10000
    device := fun _ => 0, transfers := [] }

theorem outportl_unfaithful : ¬ Faithful caller 0x3D4 0x10000 := by
  have stack : caller.stack 3 = [0, 0x3D4, 0x10000] := by decide
  intro faithful
  have upper := (ports_faithful_iff stack).2.mp faithful
  exact absurd upper (by decide)

end GekonOS.Ports
