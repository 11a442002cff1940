import GekonOS.Input.Session
import GekonOS.Kernel.Shell
import GekonOS.Shared.Transition

set_option autoImplicit false

namespace GekonOS

open Transition

inductive MachineLabel where
  | interrupt (scancode : UInt8) (calls : List (UInt8 × Int))
  | shell (action : ShellAction)
deriving DecidableEq

def Machine.interrupt (scancode : UInt8) (s : Machine) : Machine × MachineLabel :=
  ({ s with keyboard := (keyboardCallback scancode s.keyboard).1 },
    .interrupt scancode (inserts (keyboardCallback scancode s.keyboard).2))

-- `some scancode` for an interrupt, `none` for a step of the shell
def Machine.next (s : Machine) : Option UInt8 → Option (Machine × MachineLabel)
  | some scancode => if s.pc = .halted then none else some (s.interrupt scancode)
  | none => (lshLoop s).map fun result => (result.1, .shell result.2)

def Machine.Step (s : Machine) (label : MachineLabel) (s' : Machine) : Prop :=
  ∃ choice, s.next choice = some (s', label)

theorem Machine.step_cases {s s' : Machine} {label : MachineLabel} (step : s.Step label s') :
    (∃ scancode, (s', label) = s.interrupt scancode) ∨
      ∃ action, lshLoop s = some (s', action) ∧ label = .shell action := by
  obtain ⟨choice, taken⟩ := step
  cases choice with
  | some scancode =>
    simp only [next] at taken
    split at taken
    next => cases taken
    next => exact .inl ⟨scancode, (Option.some.inj taken).symm⟩
  | none =>
    obtain ⟨⟨t, action⟩, moved, same⟩ := Option.map_eq_some_iff.mp taken
    cases same
    exact .inr ⟨action, moved, rfl⟩

-- a run from a list of choices
def Machine.play (s : Machine) : List (Option UInt8) → Option (List MachineLabel × Machine)
  | [] => some ([], s)
  | choice :: choices => do
    let (t, label) ← s.next choice
    let (labels, final) ← t.play choices
    pure (label :: labels, final)

theorem Machine.play_run {s final : Machine} {choices : List (Option UInt8)}
    {labels : List MachineLabel} (played : s.play choices = some (labels, final)) :
    Run Machine.Step s labels final := by
  induction choices generalizing s labels with
  | nil =>
    cases played
    exact Run.nil
  | cons choice choices ih =>
    obtain ⟨⟨t, label⟩, taken, rest⟩ := Option.bind_eq_some_iff.mp played
    obtain ⟨⟨later, last⟩, replayed, same⟩ := Option.bind_eq_some_iff.mp rest
    cases same
    exact Run.cons ⟨choice, taken⟩ (ih replayed)

def accepted (labels : List MachineLabel) : List UInt8 :=
  labels.flatMap fun
    | .interrupt _ calls => calls.filterMap fun call => if call.2 = 0 then some call.1 else none
    | .shell _ => []

-- the keys `kbd_get_key` took out of the queue
def consumed (labels : List MachineLabel) : List UInt8 :=
  labels.flatMap fun
    | .shell (.getKey key) => if key ≠ 0 then [key] else []
    | _ => []

def seen (labels : List MachineLabel) : List (List UInt8) :=
  labels.flatMap fun
    | .shell (.parseCli line _) => [line]
    | _ => []

def rejects : MachineLabel → Prop
  | .interrupt _ calls => ∃ call ∈ calls, call.2 ≠ 0
  | .shell _ => False

end GekonOS
