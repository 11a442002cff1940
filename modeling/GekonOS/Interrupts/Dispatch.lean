import GekonOS.Kernel.Isr
import Mathlib.Data.List.Induction

set_option autoImplicit false

namespace GekonOS.Dispatch

variable {H : Type}

inductive Registration (H : Type) where
  | register (n : UInt8) (handler : Option H)
  | unregister (n : UInt8)

def Registration.vector : Registration H → Nat
  | .register n _ => n.toNat
  | .unregister n => n.toNat

-- what the vector of a registration is left with
def Registration.handler : Registration H → Option H
  | .register _ handler => handler
  | .unregister _ => none

def Registration.perform (handlers : InterruptHandlers H) :
    Registration H → InterruptHandlers H
  | .register n handler => registerInterruptHandler n handler handlers
  | .unregister n => unregisterInterruptHandler n handlers

def table (history : List (Registration H)) : InterruptHandlers H :=
  history.foldl Registration.perform InterruptHandlers.initial

/-- The handler most recently registered for a vector and not unregistered since. -/
def registered (history : List (Registration H)) (intNo : Nat) : Option H :=
  (history.reverse.find? fun entry => entry.vector = intNo).bind Registration.handler

theorem table_eq_registered (history : List (Registration H)) (intNo : Nat) :
    table history intNo = registered history intNo := by
  induction history using List.reverseRecOn with
  | nil => rfl
  | append_singleton history entry ih =>
    have step : table (history ++ [entry]) = entry.perform (table history) := by simp [table]
    rw [step]
    by_cases same : entry.vector = intNo
    · subst same
      cases entry <;> simp [registered, Registration.perform, Registration.vector,
        Registration.handler, registerInterruptHandler, unregisterInterruptHandler]
    · have kept : entry.perform (table history) intNo = table history intNo := by
        cases entry <;> exact Function.update_of_ne (Ne.symm same) ..
      rw [kept, ih]
      simp [registered, same]

def calls (trace : InterruptTrace H) : List H :=
  trace.effects.filterMap fun
    | .call handler => some handler
    | _ => none

def acknowledges (trace : InterruptTrace H) : List (Nat × Nat) :=
  trace.effects.filterMap fun
    | .outportb port data => some (port, data)
    | _ => none

def panics (trace : InterruptTrace H) : Prop := ∃ message, .kpanic message ∈ trace.effects

/-- What an interrupt with vector `intNo` shall do after the registrations of `history`. -/
structure Dispatches (history : List (Registration H)) (intNo : Nat) : Prop where
  called : calls (interrupt intNo (table history)) = (registered history intNo).toList
  master : 32 ≤ intNo → (acknowledges (interrupt intNo (table history))).count (0x20, 0x20) = 1
  slave : 32 ≤ intNo → (acknowledges (interrupt intNo (table history))).count (0xA0, 0x20) =
    if 40 ≤ intNo then 1 else 0
  panic : panics (interrupt intNo (table history)) →
    intNo < 32 ∧ registered history intNo = none

theorem isrHandler_correct (intNo : Nat) (handlers : InterruptHandlers H) :
    (isrHandler intNo handlers).effects = [.kpanic (exceptionMessages.getD intNo "")] := rfl

theorem irqHandler_correct (intNo : Nat) (handlers : InterruptHandlers H) :
    (irqHandler intNo handlers).effects =
      (if 40 ≤ intNo then [.outportb 0xA0 0x20] else []) ++
        .outportb 0x20 0x20 :: (handlers intNo).toList.map .call := by
  unfold irqHandler callHandler
  by_cases slave : 40 ≤ intNo
  · rw [if_pos slave, if_pos slave]
    cases handlers intNo <;> rfl
  · rw [if_neg slave, if_neg slave]
    cases handlers intNo <;> rfl

theorem irq_dispatches (history : List (Registration H)) {intNo : Nat} (irq : 32 ≤ intNo) :
    Dispatches history intNo := by
  have effects : (interrupt intNo (table history)).effects =
      (if 40 ≤ intNo then [.outportb 0xA0 0x20] else []) ++
        .outportb 0x20 0x20 :: (registered history intNo).toList.map .call := by
    rw [interrupt, if_neg (Nat.not_lt_of_le irq), irqHandler_correct, table_eq_registered]
  constructor
  case called =>
    rw [calls, effects]
    cases registered history intNo <;> split <;> rfl
  case master =>
    intro _
    rw [acknowledges, effects]
    cases registered history intNo <;> split <;> rfl
  case slave =>
    intro _
    rw [acknowledges, effects]
    cases registered history intNo <;> split <;> rfl
  case panic =>
    rintro ⟨message, member⟩
    rw [effects] at member
    exfalso
    cases registered history intNo <;> split at member <;> simp at member

theorem exception_dispatches (history : List (Registration H)) {intNo : Nat}
    (exception : intNo < 32) : Dispatches history intNo ↔ registered history intNo = none := by
  have effects : (interrupt intNo (table history)).effects =
      [.kpanic (exceptionMessages.getD intNo "")] := by
    rw [interrupt, if_pos exception, isrHandler_correct]
  constructor
  · intro dispatches
    exact (dispatches.panic ⟨_, by rw [effects]; exact List.mem_singleton_self _⟩).2
  · intro none
    constructor
    case called =>
      rw [calls, effects, none]
      rfl
    case master => exact fun irq => absurd exception (Nat.not_lt_of_le irq)
    case slave => exact fun irq => absurd exception (Nat.not_lt_of_le irq)
    case panic => exact fun _ => ⟨exception, none⟩

/-- Interrupts are dispatched as they shall be, except for an exception with a handler. -/
theorem dispatches_iff (history : List (Registration H)) (intNo : Nat) :
    Dispatches history intNo ↔ (intNo < 32 → registered history intNo = none) := by
  by_cases exception : intNo < 32
  · rw [exception_dispatches history exception]
    exact ⟨fun none _ => none, fun none => none exception⟩
  · have irq := irq_dispatches history (Nat.le_of_not_lt exception)
    exact ⟨fun _ below => absurd below exception, fun _ => irq⟩

-- the page fault handler that `paging_init` registers
inductive Handler where
  | pageFault
deriving DecidableEq

theorem pageFault_unreached :
    ¬ Dispatches [.register 14 (some Handler.pageFault)] 14 := by
  intro dispatches
  have called := dispatches.called
  revert called
  decide

end GekonOS.Dispatch
