import GekonOS.Input.Line

set_option autoImplicit false

namespace GekonOS.Buffer

open Transition

-- one step of `lsh_loop`, whatever the keyboard has for it
def Step (s : Machine) (action : ShellAction) (s' : Machine) : Prop :=
  ∃ keyboard, lshLoop { s with keyboard := keyboard } = some (s', action)

-- the keys that reach the store of the `switch`
def Stores (key : UInt8) : Prop := key ≠ 0 ∧ key ≠ 8 ∧ key ≠ chr '\n' ∧ key ≠ chr '\t'

instance (key : UInt8) : Decidable (Stores key) := inferInstanceAs (Decidable (_ ∧ _))

/-- The line has room for the key that is about to be stored. -/
def LineFits (s : Machine) (_ : ShellAction) : Prop :=
  ∀ key, s.pc = .dispatch key → Stores key → s.cli.cliLen < 255

structure Start (s : Machine) : Prop where
  pc : s.pc = .prompt
  cliLen : s.cli.cliLen = 0

variable {s s' : Machine} {action : ShellAction}

theorem step_cliLen (step : Step s action s') :
    s'.cli.cliLen ≤ s.cli.cliLen ∨
      ∃ key, s.pc = .dispatch key ∧ Stores key ∧ s'.cli.cliLen = s.cli.cliLen + 1 := by
  obtain ⟨keyboard, moved⟩ := step
  unfold lshLoop at moved
  cases at_ : s.pc with
  | prompt =>
    simp only [at_] at moved
    cases moved
    exact Or.inl (Nat.zero_le _)
  | poll | getKey =>
    simp only [at_] at moved
    cases moved
    exact Or.inl (Nat.le_refl _)
  | halted | gui =>
    simp only [at_] at moved
    cases moved
  | parse =>
    simp only [at_] at moved
    obtain ⟨⟨c, calls, outcome⟩, parsed, same⟩ := Option.bind_eq_some_iff.mp moved
    cases same
    exact Or.inl (Nat.le_of_eq (Line.store_correct (Line.parseCli_store parsed)).2.1)
  | dispatch key =>
    simp only [at_] at moved
    by_cases zero : key = 0
    · rw [if_pos zero] at moved
      cases moved
      exact Or.inl (Nat.le_refl _)
    rw [if_neg zero] at moved
    obtain ⟨⟨c, calls⟩, edited, same⟩ := Option.bind_eq_some_iff.mp moved
    cases same
    unfold editLine at edited
    by_cases back : key = 8
    · rw [if_pos back] at edited
      split at edited
      next =>
        cases edited
        exact Or.inl (Nat.sub_le _ _)
      next =>
        cases edited
        exact Or.inl (Nat.le_refl _)
    rw [if_neg back] at edited
    by_cases enter : key = chr '\n'
    · rw [if_pos enter] at edited
      cases edited
      exact Or.inl (Nat.le_refl _)
    rw [if_neg enter] at edited
    by_cases tab : key = chr '\t'
    · rw [if_pos tab] at edited
      cases edited
      exact Or.inl (Nat.le_refl _)
    · rw [if_neg tab] at edited
      obtain ⟨stored, store, rest⟩ := Option.bind_eq_some_iff.mp edited
      cases rest
      refine Or.inr ⟨key, rfl, ⟨zero, back, enter, tab⟩, ?_⟩
      simp only [(Line.store_correct store).2.1]

theorem step_bound (bound : s.cli.cliLen ≤ 255) (fits : LineFits s action)
    (step : Step s action s') : s'.cli.cliLen ≤ 255 := by
  cases step_cliLen step with
  | inl shorter => exact Nat.le_trans shorter bound
  | inr stored =>
    obtain ⟨key, here, stores, length⟩ := stored
    have room := fits key here stores
    omega

theorem step_overflow (bound : s.cli.cliLen ≤ 255) (full : ¬ LineFits s action)
    (step : Step s action s') : s'.cli.cliLen = 256 := by
  simp only [LineFits, not_forall, Nat.not_lt] at full
  obtain ⟨key, here, stores, full⟩ := full
  obtain ⟨keyboard, moved⟩ := step
  have length : s.cli.cliLen = 255 := by omega
  simp only [lshLoop, here, if_neg stores.1] at moved
  obtain ⟨⟨c, calls⟩, edited, same⟩ := Option.bind_eq_some_iff.mp moved
  cases same
  simp only [editLine, if_neg stores.2.1, if_neg stores.2.2.1, if_neg stores.2.2.2] at edited
  obtain ⟨stored, store, rest⟩ := Option.bind_eq_some_iff.mp edited
  cases rest
  simp only [(Line.store_correct store).2.1, length]

def holding (key : UInt8) : Keyboard :=
  { Keyboard.initial with
    kbdBuffer := { buffer := fun _ => key, inPtr := 1, outPtr := 0, size := 2 } }

-- a relation that leaves every step alone that does not deal with a key
def Includes (R : Machine → ShellAction → Machine → Prop) : Prop :=
  ∀ s action s', (∀ key, s.pc ≠ .dispatch key) → Step s action s' → R s action s'

theorem guarded_includes : Includes (Guarded LineFits Step) :=
  fun _ _ _ outside step => ⟨fun key here => absurd here (outside key), step⟩

theorem step_includes : Includes Step := fun _ _ _ _ step => step

theorem reads_any {R : Machine → ShellAction → Machine → Prop} (includes : Includes R)
    {start : Machine} {labels : List ShellAction} (run : Run R start labels s)
    (here : s.pc = .poll) (key : UInt8) :
    ∃ labels s', Run R start labels s' ∧ s'.pc = .dispatch key ∧ s'.cli = s.cli := by
  have polled : Step s (.quiet []) { s with pc := .getKey, keyboard := holding key } := by
    refine ⟨holding key, ?_⟩
    simp only [lshLoop, here]
    rfl
  have read : Step { s with pc := .getKey, keyboard := holding key } (.getKey key)
      { s with pc := .dispatch key, keyboard := (kbdGetKey (holding key)).2 } :=
    ⟨holding key, rfl⟩
  have first := includes _ _ _ (by simp [here]) polled
  have second := includes _ _ _ (by simp) read
  exact ⟨_, _, (run.snoc first).snoc second, rfl, rfl⟩

theorem stores_step (s : Machine) (here : s.pc = .dispatch (chr 'a')) (within : s.cli.cliLen < 256) :
    ∃ s', Step s (.quiet [.kprintfChar (chr 'a')]) s' ∧ s'.pc = .poll ∧
      s'.cli.cliLen = s.cli.cliLen + 1 := by
  have stored : s.cli.store s.cli.cliLen (chr 'a') =
      some { s.cli with cli := s.cli.cli.set s.cli.cliLen (chr 'a') } := dif_pos within
  refine ⟨{ s with pc := .poll, cli :=
    { cliLen := s.cli.cliLen + 1, cli := s.cli.cli.set s.cli.cliLen (chr 'a') } },
    ⟨s.keyboard, ?_⟩, rfl, rfl⟩
  simp only [lshLoop, here, editLine, stored]
  rfl

theorem fill_line (n : Nat) (bound : n ≤ 255) :
    ∃ labels s, Run (Guarded LineFits Step) Line.initial labels s ∧ s.pc = .poll ∧
      s.cli.cliLen = n := by
  induction n with
  | zero =>
    have prompted : Step Line.initial (.quiet (showCmdline Line.initial.cli).2)
        { Line.initial with pc := .poll, cli := (showCmdline Line.initial.cli).1 } :=
      ⟨Line.initial.keyboard, rfl⟩
    exact ⟨_, _, Run.snoc Run.nil (guarded_includes _ _ _ (by simp [Line.initial]) prompted),
      rfl, rfl⟩
  | succ n ih =>
    obtain ⟨labels, s, run, here, length⟩ := ih (by omega)
    obtain ⟨more, t, run, pc, cli⟩ := reads_any guarded_includes run here (chr 'a')
    have shorter : t.cli.cliLen < 255 := by
      rw [cli, length]
      omega
    obtain ⟨s', step, polls, longer⟩ := stores_step t pc (by omega)
    refine ⟨_, s', run.snoc ⟨fun _ _ _ => shorter, step⟩, polls, ?_⟩
    rw [longer, cli, length]

/-- After 256 characters and a newline the terminator goes to `cli[256]`. -/
theorem terminator_outside : ∃ labels s, Run Step Line.initial labels s ∧
    s.cli.cliLen = 256 ∧ s.pc = .parse ∧ ∀ action s', ¬ Step s action s' := by
  obtain ⟨labels, s, run, here, length⟩ := fill_line 255 (Nat.le_refl _)
  obtain ⟨_, t, run, pc, cli⟩ := reads_any guarded_includes run here (chr 'a')
  obtain ⟨u, stored, here, longer⟩ := stores_step t pc (by rw [cli, length]; decide)
  have plain := (run.mono fun _ _ _ guarded => guarded.2).snoc stored
  obtain ⟨_, v, run, pc, same⟩ := reads_any step_includes plain here (chr '\n')
  have full : v.cli.cliLen = 256 := by rw [same, longer, cli, length]
  have step : Step v (.quiet [.kprintf "\n"]) { v with pc := .parse } := by
    refine ⟨v.keyboard, ?_⟩
    simp only [lshLoop, pc, editLine]
    rfl
  refine ⟨_, _, run.snoc step, full, rfl, ?_⟩
  rintro action s' ⟨keyboard, moved⟩
  have outside : v.cli.store v.cli.cliLen 0 = none := by
    rw [full]
    exact dif_neg (by decide)
  simp only [lshLoop, parseCli, outside] at moved
  cases moved

/--
While every stored key finds at most 254 characters before it, the length stays below 256 and no
store leaves the array, so the loop has a next step; the first key that finds 255 characters
takes the length to 256.
-/
theorem cliLen_bounded {start : Machine} {labels : List ShellAction} (initial : Start start)
    (run : Run (Guarded LineFits Step) start labels s) :
    s.cli.cliLen ≤ 255 ∧
      (∀ keyboard, s.pc ≠ .halted → s.pc ≠ .gui →
        (lshLoop { s with keyboard := keyboard }).isSome) ∧
      ∀ action s', Step s action s' → ¬ LineFits s action → s'.cli.cliLen = 256 := by
  have bound : s.cli.cliLen ≤ 255 := by
    refine run.invariant (I := fun s => s.cli.cliLen ≤ 255) (by simp [initial.cliLen]) ?_
    rintro t label t' bound ⟨fits, step⟩
    exact step_bound bound fits step
  refine ⟨bound, ?_, ?_⟩
  · intro keyboard running noGui
    exact Line.lshLoop_progress { s with keyboard := keyboard } bound running noGui
  · intro action s' step full
    exact step_overflow bound full step

theorem cliLen_bounded_full : ∃ labels s, Run (Guarded LineFits Step) Line.initial labels s ∧
    s.cli.cliLen = 255 ∧ (lshLoop s).isSome := by
  obtain ⟨labels, s, run, here, length⟩ := fill_line 255 (Nat.le_refl _)
  have bounded := cliLen_bounded ⟨rfl, rfl⟩ run
  exact ⟨labels, s, run, length, bounded.2.1 s.keyboard (by simp [here]) (by simp [here])⟩

end GekonOS.Buffer
