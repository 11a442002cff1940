import GekonOS.Interrupts.Stubs
import GekonOS.Shared.Transition

set_option autoImplicit false

namespace GekonOS.Unseen

open X86 Cpu Stubs Transition

variable {α : Type}

/-- The handlers as compiled code, and what they may write to. -/
structure Handlers where
  isrHandler : Cpu → Cpu
  irqHandler : Cpu → Cpu
  owned : Set Word
  depth : Nat
  isr : Cdecl isrHandler owned depth
  irq : Cdecl irqHandler owned depth
  few : depth ≤ 2147483648

variable (h : Handlers)

-- one data segment for everything, as `gdt_flush` loads it
def Flat (c : Cpu) : Prop := ∀ s ∈ [Seg.es, .fs, .gs], c.segs s = c.segs .ds

-- the interrupt flag
def Enabled (c : Cpu) : Prop := c.eflags.getLsbD 9 = true

/-- An interrupt request is served in between, at the place `back` of the code and through any gate. -/
def Serves (c f : Cpu) : Prop :=
  Enabled c ∧ Flat c ∧ Disjoint h.owned (Below (c.esp + 4) 64) ∧
    ∃ intNo back selector offset, 32 ≤ intNo ∧ intNo < 48 ∧
      f = served c back h.isrHandler h.irqHandler selector offset none intNo

/-- What two states have in common for code that does not look below its stack and at what the
handlers own. -/
structure Alike (c d : Cpu) : Prop where
  regs : c.regs = d.regs
  segs : c.segs = d.segs
  eip : c.eip = d.eip
  eflags : c.eflags = d.eflags
  tables : c.gdtr = d.gdtr ∧ c.idtr = d.idtr
  mem : Set.EqOn c.mem d.mem (h.owned ∪ Below c.esp (64 + h.depth))ᶜ

variable {h} {c d e f : Cpu}

theorem Alike.refl (c : Cpu) : Alike h c c :=
  ⟨rfl, rfl, rfl, rfl, ⟨rfl, rfl⟩, fun _ _ => rfl⟩

theorem Alike.trans (first : Alike h c d) (second : Alike h d e) : Alike h c e := by
  have esp : c.esp = d.esp := congrFun first.regs .esp
  constructor
  case regs => exact first.regs.trans second.regs
  case segs => exact first.segs.trans second.segs
  case eip => exact first.eip.trans second.eip
  case eflags => exact first.eflags.trans second.eflags
  case tables =>
    exact ⟨first.tables.1.trans second.tables.1, first.tables.2.trans second.tables.2⟩
  case mem =>
    have later := second.mem
    rw [← esp] at later
    exact first.mem.trans later

-- no request has an error code, and no stub of one expects it
theorem irq_expects : ∀ intNo < 48, 32 ≤ intNo → expectsErrorCode intNo = false := by
  decide

theorem Serves.alike (serves : Serves h c f) : Alike h f c := by
  obtain ⟨-, flat, apart, intNo, back, selector, offset, irq, vector, rfl⟩ := serves
  have smaller : Below c.esp 56 ⊆ Below (c.esp + 4) 64 := by
    intro x below
    rw [mem_below] at below ⊢
    bv_omega
  have expected : (none : Option Word).isSome = expectsErrorCode intNo := by
    rw [irq_expects intNo vector irq]
    rfl
  have resumes : Resumes h.owned h.depth c
      (served c back h.isrHandler h.irqHandler selector offset none intNo) :=
    served_resumes c vector h.isr h.irq h.few (apart.mono_right smaller) expected
  have esp := congrFun resumes.regs .esp
  constructor
  case regs => exact resumes.regs
  case segs =>
    funext s
    by_cases data : s ∈ [Seg.es, .fs, .gs]
    · rw [resumes.data s data, flat s data]
    · refine resumes.segs s ?_
      cases s <;> simp at data ⊢
  case eip => exact resumes.eip
  case eflags => exact resumes.eflags
  case tables => exact resumes.tables
  case mem =>
    rw [show Cpu.esp _ = c.esp from esp]
    exact resumes.frame

def idle : Handlers :=
  { isrHandler := plainReturn, irqHandler := plainReturn, owned := ∅, depth := 0,
    isr := plainReturn_cdecl, irq := plainReturn_cdecl, few := by decide }

-- `inc eax`, but for the flags
def Counts (c : Cpu) (_ : Unit) (c' : Cpu) : Prop := c' = c.setReg .eax (c.regs .eax + 1)

theorem counts_blind (c d : Cpu) (label : Unit) (c' : Cpu) (alike : Alike idle c d)
    (step : Counts c label c') : ∃ d', Counts d label d' ∧ Alike idle c' d' := by
  subst step
  refine ⟨_, rfl, ?_⟩
  have regs : (c.setReg .eax (c.regs .eax + 1)).regs = (d.setReg .eax (d.regs .eax + 1)).regs := by
    simp only [Cpu.setReg, alike.regs]
  exact ⟨regs, alike.segs, alike.eip, alike.eflags, alike.tables, alike.mem⟩

theorem idle_serves {c : Cpu} (enabled : c.eflags = 0x202) (flat : Flat c) :
    ∃ f, Serves idle c f :=
  ⟨_, by rw [Enabled, enabled]; decide, flat, Set.empty_disjoint _, 32, 0, 8, 0, by decide,
    by decide, rfl⟩

end GekonOS.Unseen
