import GekonOS.Input.Machine
import GekonOS.Shared.Segments

set_option autoImplicit false

namespace GekonOS.Line

open Transition Segments

/-!
# What the command interpreter sees of the keys

The reference: each terminated segment of the accepted keys, edited on its own.
-/

def newline : UInt8 := chr '\n'

def editKey (line : List UInt8) (key : UInt8) : List UInt8 :=
  if key = 8 then line.dropLast else if key = chr '\t' then line else line ++ [key]

def edit (segment : List UInt8) : List UInt8 := segment.foldl editKey []

theorem edit_append (segment : List UInt8) (key : UInt8) :
    edit (segment ++ [key]) = editKey (edit segment) key := by
  simp [edit]

theorem mem_edit {x : UInt8} {segment : List UInt8} (member : x ∈ edit segment) :
    x ∈ segment := by
  induction segment using List.reverseRecOn with
  | nil => exact member
  | append_singleton segment key ih =>
    rw [edit_append, editKey] at member
    split at member
    next => exact List.mem_append_left _ (ih (List.dropLast_subset _ member))
    next =>
      split at member
      next => exact List.mem_append_left _ (ih member)
      next =>
        cases List.mem_append.mp member with
        | inl earlier => exact List.mem_append_left _ (ih earlier)
        | inr here => exact List.mem_append_right _ here

/-! ## The command line -/

def typed (c : Cli) : List UInt8 := c.cli.toList.take c.cliLen

theorem store_correct {c c' : Cli} {v : UInt8} (stored : c.store c.cliLen v = some c') :
    c.cliLen < 256 ∧ c'.cliLen = c.cliLen ∧
      c'.cli.toList = c.cli.toList.set c.cliLen v := by
  unfold Cli.store at stored
  split at stored
  next within =>
    cases stored
    exact ⟨within, rfl, Vector.toList_set within⟩
  next => cases stored

theorem typed_store {c c' : Cli} {v : UInt8} (stored : c.store c.cliLen v = some c') :
    typed { c' with cliLen := c'.cliLen + 1 } = typed c ++ [v] := by
  obtain ⟨within, length, bytes⟩ := store_correct stored
  have bound : c.cliLen < (c.cli.toList.set c.cliLen v).length := by simpa using within
  simp only [typed, bytes, length]
  rw [List.take_succ_eq_append_getElem bound, List.getElem_set_self, List.take_set_of_le (Nat.le_refl _)]

theorem string_store {c c' : Cli} (stored : c.store c.cliLen 0 = some c')
    (nonzero : ∀ key ∈ typed c, key ≠ 0) : c'.string = typed c := by
  obtain ⟨within, -, bytes⟩ := store_correct stored
  have bound : c.cliLen < c.cli.toList.length := by simpa using within
  rw [Cli.string, bytes, List.set_eq_take_append_cons_drop, if_pos bound]
  rw [List.takeWhile_append_of_pos (by simpa [typed] using nonzero)]
  simp [typed]

theorem typed_backspace (c : Cli) (bound : c.cliLen ≤ 256) :
    typed { c with cliLen := c.cliLen - 1 } = (typed c).dropLast := by
  have length : (c.cli.toList.take c.cliLen).length = c.cliLen := by
    rw [List.length_take, Vector.length_toList, Nat.min_eq_left bound]
  simp only [typed, List.dropLast_eq_take, length, List.take_take]
  rw [Nat.min_eq_left (Nat.sub_le _ _)]

theorem parseCli_store {c c' : Cli} {calls : List ConsoleCall} {outcome : Outcome}
    (parsed : parseCli c = some (c', calls, outcome)) : c.store c.cliLen 0 = some c' := by
  obtain ⟨stored, store, same⟩ := Option.bind_eq_some_iff.mp parsed
  rw [store, (Prod.mk.inj (Option.some.inj same)).1]

theorem editLine_correct {key : UInt8} {c c' : Cli} {calls : List ConsoleCall}
    (edited : editLine key c = some (c', calls)) (bound : c.cliLen ≤ 256) :
    c'.cliLen ≤ 256 ∧ typed c' = if key = newline then typed c else editKey (typed c) key := by
  unfold editLine at edited
  by_cases back : key = 8
  · have other : ¬ key = newline := by rw [back]; decide
    rw [if_pos back] at edited
    rw [if_neg other, editKey, if_pos back]
    split at edited
    next some =>
      cases edited
      exact ⟨Nat.le_trans (Nat.sub_le _ _) bound, typed_backspace c bound⟩
    next none =>
      cases edited
      have zero : c.cliLen = 0 := by simpa using none
      exact ⟨bound, by simp [typed, zero]⟩
  rw [if_neg back] at edited
  by_cases enter : key = newline
  · rw [if_pos enter]
    rw [if_pos (show key = chr '\n' from enter)] at edited
    cases edited
    exact ⟨bound, rfl⟩
  rw [if_neg (show ¬ key = chr '\n' from enter)] at edited
  rw [if_neg enter, editKey, if_neg back]
  by_cases tab : key = chr '\t'
  · rw [if_pos tab] at edited ⊢
    cases edited
    exact ⟨bound, rfl⟩
  · rw [if_neg tab] at edited ⊢
    obtain ⟨stored, store, rest⟩ := Option.bind_eq_some_iff.mp edited
    cases rest
    obtain ⟨within, length, -⟩ := store_correct store
    exact ⟨by simp only [length]; exact within, typed_store store⟩

theorem lshLoop_progress (s : Machine) (bound : s.cli.cliLen ≤ 255) (running : s.pc ≠ .halted)
    (noGui : s.pc ≠ .gui) : (lshLoop s).isSome := by
  have stores (v : UInt8) : ∃ c, s.cli.store s.cli.cliLen v = some c :=
    ⟨_, dif_pos (Nat.lt_succ_of_le bound)⟩
  unfold lshLoop
  cases at_ : s.pc with
  | prompt | poll | getKey => rfl
  | halted => exact absurd at_ running
  | gui => exact absurd at_ noGui
  | parse =>
    obtain ⟨c, stored⟩ := stores 0
    simp [parseCli, stored]
  | dispatch key =>
    obtain ⟨c, stored⟩ := stores key
    by_cases zero : key = 0
    · simp [zero]
    · simp only [zero, if_false, editLine]
      split
      next => split <;> rfl
      next => 
        split
        next => rfl
        next =>
          split
          next => rfl
          next => simp [stored]

/-! ## Runs -/

-- keys taken from the queue and not yet dealt with
def inHand : ShellPc → List UInt8
  | .dispatch key => [key]
  | .parse => [newline]
  | _ => []

def Editing : ShellPc → Prop
  | .poll | .getKey | .dispatch _ | .parse => True
  | _ => False

/-- The keys the shell is done with are `handled`. -/
structure Invariant (labels : List MachineLabel) (s : Machine) (handled : List UInt8) : Prop where
  idle : s.keyboard.sawBreakCode = 0
  queue : s.keyboard.kbdBuffer.Wf
  size : s.keyboard.kbdBuffer.size = 64
  nonzero : ∀ key ∈ accepted labels, key ≠ 0
  taken : consumed labels = handled ++ inHand s.pc
  flow : accepted labels = consumed labels ++ s.keyboard.kbdBuffer.contents
  lines : seen labels = (segments newline handled).map edit
  bound : s.cli.cliLen ≤ 256
  editing : Editing s.pc → typed s.cli = edit (remainder newline handled)
  between : ¬ Editing s.pc → remainder newline handled = []
  pending : s.pc = .getKey → s.keyboard.kbdBuffer.contents ≠ []

theorem decoded_nonzero {shift : Bool} {scancode key : UInt8}
    (found : decoded shift scancode = some key) : key ≠ 0 := by
  unfold decoded at found
  simp only at found
  split at found
  next => cases found
  next plain =>
    cases found
    exact fun zero => plain (by simp [zero])

-- the calls of `fifo_insert` in one interrupt, against the queue before and after
theorem feed_flow {fifo : FifoQueue} (wf : fifo.Wf) (key : Option UInt8)
    (nonzero : ∀ k, key = some k → k ≠ 0) :
    (feed fifo key).1.contents =
        fifo.contents ++ accepted [.interrupt 0 (feed fifo key).2] ∧
      (∀ k ∈ accepted [.interrupt 0 (feed fifo key).2], k ≠ 0) ∧
      (rejects (.interrupt 0 (feed fifo key).2) → fifo.contents.length + 1 = fifo.size) := by
  cases key with
  | none => simp [feed, accepted, rejects]
  | some key =>
    by_cases full : fifo.count + 1 = fifo.size
    · simp [feed, fifoInsert_rejected wf key full, accepted, rejects, full]
    · obtain ⟨fifo', inserted, -, -, grown⟩ := fifoInsert_accepted wf key full
      simp [feed, inserted, accepted, rejects, grown, nonzero]

theorem accepted_interrupt (labels : List MachineLabel) (scancode : UInt8)
    (calls : List (UInt8 × Int)) : accepted (labels ++ [.interrupt scancode calls]) =
      accepted labels ++ accepted [.interrupt 0 calls] := by
  simp [accepted]

theorem consumed_interrupt (labels : List MachineLabel) (scancode : UInt8)
    (calls : List (UInt8 × Int)) :
    consumed (labels ++ [.interrupt scancode calls]) = consumed labels := by
  simp [consumed]

theorem seen_interrupt (labels : List MachineLabel) (scancode : UInt8)
    (calls : List (UInt8 × Int)) :
    seen (labels ++ [.interrupt scancode calls]) = seen labels := by
  simp [seen]

variable {labels : List MachineLabel} {s : Machine} {handled : List UInt8}

theorem Invariant.interrupt (inv : Invariant labels s handled) (scancode : UInt8) :
    Invariant (labels ++ [(s.interrupt scancode).2]) (s.interrupt scancode).1 handled := by
  have scanned := keyboardCallback_correct scancode s.keyboard inv.idle
  have fed := feed_correct inv.queue (decoded (shiftOn s.keyboard.kbdStatus) scancode)
  obtain ⟨grown, nonzero, -⟩ := feed_flow inv.queue
    (decoded (shiftOn s.keyboard.kbdStatus) scancode) (fun _ found => decoded_nonzero found)
  have buffer := congrArg Prod.fst scanned.queue
  have calls := congrArg Prod.snd scanned.queue
  simp only at buffer calls
  simp only [Machine.interrupt, calls]
  constructor
  case idle => exact scanned.idle
  case queue => exact buffer ▸ fed.1
  case size => rw [buffer, fed.2, inv.size]
  case nonzero =>
    intro key member
    rw [accepted_interrupt] at member
    cases List.mem_append.mp member with
    | inl earlier => exact inv.nonzero key earlier
    | inr here => exact nonzero key here
  case taken => rw [consumed_interrupt, inv.taken]
  case flow =>
    rw [accepted_interrupt, consumed_interrupt, buffer, grown, inv.flow, List.append_assoc]
  case lines => rw [seen_interrupt, inv.lines]
  case bound => exact inv.bound
  case editing => exact inv.editing
  case between => exact inv.between
  case pending =>
    intro here
    rw [buffer, grown]
    exact List.append_ne_nil_of_left_ne_nil (inv.pending here) _

theorem accepted_shell (labels : List MachineLabel) (action : ShellAction) :
    accepted (labels ++ [.shell action]) = accepted labels := by
  simp [accepted]

-- a step that neither reads a key nor parses
theorem Invariant.quiet (inv : Invariant labels s handled) {calls : List ConsoleCall}
    {pc : ShellPc} {cli : Cli} {next : List UInt8}
    (taken : next ++ inHand pc = handled ++ inHand s.pc)
    (lines : segments newline next = segments newline handled) (bound : cli.cliLen ≤ 256)
    (editing : Editing pc → typed cli = edit (remainder newline next))
    (between : ¬ Editing pc → remainder newline next = [])
    (pending : pc = .getKey → s.keyboard.kbdBuffer.contents ≠ []) :
    Invariant (labels ++ [.shell (.quiet calls)]) { s with pc := pc, cli := cli } next := by
  have consumes : consumed (labels ++ [.shell (.quiet calls)]) = consumed labels := by
    simp [consumed]
  have sees : seen (labels ++ [.shell (.quiet calls)]) = seen labels := by simp [seen]
  constructor
  case idle => exact inv.idle
  case queue => exact inv.queue
  case size => exact inv.size
  case nonzero => rw [accepted_shell]; exact inv.nonzero
  case taken => rw [consumes, inv.taken, taken]
  case flow => rw [accepted_shell, consumes]; exact inv.flow
  case lines => rw [sees, inv.lines, lines]
  case bound => exact bound
  case editing => exact editing
  case between => exact between
  case pending => exact pending

theorem Invariant.prompt (inv : Invariant labels s handled) (here : s.pc = .prompt)
    {s' : Machine} {action : ShellAction} (moved : lshLoop s = some (s', action)) :
    Invariant (labels ++ [.shell action]) s' handled := by
  simp only [lshLoop, here, showCmdline, Option.some.injEq, Prod.mk.injEq] at moved
  obtain ⟨rfl, rfl⟩ := moved
  have closed : remainder newline handled = [] := inv.between (by rw [here]; exact id)
  refine inv.quiet ?_ rfl (Nat.zero_le _) ?_ ?_ ?_
  · rw [here]
    rfl
  · intro _
    rw [closed]
    rfl
  · exact fun _ => closed
  · exact fun impossible => ShellPc.noConfusion impossible

theorem Invariant.poll (inv : Invariant labels s handled) (here : s.pc = .poll)
    {s' : Machine} {action : ShellAction} (moved : lshLoop s = some (s', action)) :
    Invariant (labels ++ [.shell action]) s' handled := by
  simp only [lshLoop, here, Option.some.injEq, Prod.mk.injEq] at moved
  obtain ⟨rfl, rfl⟩ := moved
  have line := inv.editing (by rw [here]; trivial)
  by_cases empty : kbdKeysAvailable s.keyboard ≠ 0
  · simp only [if_pos empty]
    refine inv.quiet ?_ rfl inv.bound (fun _ => line) ?_ ?_
    · rw [here]
    · exact fun impossible => absurd trivial impossible
    · exact fun impossible => ShellPc.noConfusion impossible
  · simp only [if_neg empty]
    refine inv.quiet ?_ rfl inv.bound (fun _ => line) ?_ ?_
    · rw [here]
      rfl
    · exact fun impossible => absurd trivial impossible
    · intro _
      rw [ne_eq, FifoQueue.contents_eq_nil inv.queue]
      intro same
      exact empty (by simp [kbdKeysAvailable, fifoEmpty, same])

theorem Invariant.getKey (inv : Invariant labels s handled) (here : s.pc = .getKey)
    {s' : Machine} {action : ShellAction} (moved : lshLoop s = some (s', action)) :
    Invariant (labels ++ [.shell action]) s' handled := by
  have waiting := inv.pending here
  rw [ne_eq, FifoQueue.contents_eq_nil inv.queue] at waiting
  obtain ⟨key, fifo, got, wf, size, contents⟩ := fifoGet_correct inv.queue waiting
  simp only [lshLoop, here, kbdGetKey, got, Option.getD_some, Option.some.injEq,
    Prod.mk.injEq] at moved
  obtain ⟨rfl, rfl⟩ := moved
  have nonzero : key ≠ 0 := by
    apply inv.nonzero
    simp [inv.flow, contents]
  have taken : consumed labels = handled := by
    rw [inv.taken, here]
    exact List.append_nil handled
  have consumes : consumed (labels ++ [.shell (.getKey key)]) = consumed labels ++ [key] := by
    simp [consumed, nonzero]
  constructor
  case idle => exact inv.idle
  case queue => exact wf
  case size => exact size.trans inv.size
  case nonzero => rw [accepted_shell]; exact inv.nonzero
  case taken => rw [consumes, taken]; rfl
  case flow => simp [accepted_shell, consumes, inv.flow, contents]
  case lines => simpa [seen] using inv.lines
  case bound => exact inv.bound
  case editing => exact fun _ => inv.editing (by rw [here]; trivial)
  case between => exact fun impossible => absurd trivial impossible
  case pending => exact fun impossible => ShellPc.noConfusion impossible

theorem Invariant.dispatch {key : UInt8} (inv : Invariant labels s handled)
    (here : s.pc = .dispatch key) {s' : Machine} {action : ShellAction}
    (moved : lshLoop s = some (s', action)) :
    ∃ next, Invariant (labels ++ [.shell action]) s' next := by
  have taken : consumed labels = handled ++ [key] := by
    rw [inv.taken, here]
    rfl
  have nonzero : key ≠ 0 := by
    apply inv.nonzero
    simp [inv.flow, taken]
  have line := inv.editing (by rw [here]; trivial)
  simp only [lshLoop, here, if_neg nonzero] at moved
  obtain ⟨⟨cli, calls⟩, edited, rest⟩ := Option.bind_eq_some_iff.mp moved
  cases rest
  obtain ⟨bound, after⟩ := editLine_correct edited inv.bound
  by_cases enter : key = newline
  · subst enter
    refine ⟨handled, inv.quiet ?_ rfl bound ?_ ?_ ?_⟩
    · rw [here]
      rfl
    · intro _
      rw [after, if_pos rfl, line]
    · exact fun impossible => absurd trivial impossible
    · exact fun impossible => ShellPc.noConfusion impossible
  · rw [if_neg (show ¬ key = chr '\n' from enter)]
    refine ⟨handled ++ [key], inv.quiet ?_ (segments_item _ _ enter) bound ?_ ?_ ?_⟩
    · rw [here]
      exact List.append_nil (handled ++ [key])
    · intro _
      rw [after, if_neg enter, remainder_item _ _ enter, edit_append, line]
    · exact fun impossible => absurd trivial impossible
    · exact fun impossible => ShellPc.noConfusion impossible

theorem Invariant.parse (inv : Invariant labels s handled) (here : s.pc = .parse)
    {s' : Machine} {action : ShellAction} (moved : lshLoop s = some (s', action)) :
    Invariant (labels ++ [.shell action]) s' (handled ++ [newline]) := by
  have line := inv.editing (by rw [here]; trivial)
  have taken : consumed labels = handled ++ [newline] := by
    rw [inv.taken, here]
    rfl
  simp only [lshLoop, here] at moved
  obtain ⟨⟨cli, calls, outcome⟩, parsed, rest⟩ := Option.bind_eq_some_iff.mp moved
  cases rest
  have store := parseCli_store parsed
  have nonzero : ∀ key ∈ typed s.cli, key ≠ 0 := by
    intro key member
    rw [line] at member
    apply inv.nonzero
    rw [inv.flow, taken]
    simp [mem_remainder newline (mem_edit member)]
  have string : cli.string = edit (remainder newline handled) := by
    rw [string_store store nonzero, line]
  have consumes : consumed (labels ++ [.shell (.parseCli cli.string calls)]) = consumed labels := by
    simp [consumed]
  obtain ⟨notEditing, empty, notGet⟩ : ¬ Editing (afterParse outcome) ∧
      inHand (afterParse outcome) = [] ∧ afterParse outcome ≠ .getKey := by
    cases outcome with
    | returned | halted | guiInit =>
      exact ⟨id, rfl, fun impossible => ShellPc.noConfusion impossible⟩
  constructor
  case idle => exact inv.idle
  case queue => exact inv.queue
  case size => exact inv.size
  case nonzero => rw [accepted_shell]; exact inv.nonzero
  case taken => rw [consumes, taken, empty, List.append_nil]
  case flow => rw [accepted_shell, consumes]; exact inv.flow
  case lines =>
    rw [segments_terminator, List.map_append, ← inv.lines]
    simp [seen, string]
  case bound =>
    obtain ⟨-, length, -⟩ := store_correct store
    rw [length]
    exact inv.bound
  case editing => exact fun editing => absurd editing notEditing
  case between => exact fun _ => remainder_terminator _ _
  case pending => exact fun impossible => absurd impossible notGet

theorem Invariant.step (inv : Invariant labels s handled) {s' : Machine} {label : MachineLabel}
    (step : s.Step label s') : ∃ next, Invariant (labels ++ [label]) s' next := by
  cases Machine.step_cases step with
  | inl interrupted =>
    obtain ⟨scancode, same⟩ := interrupted
    have kept := inv.interrupt scancode
    rw [← same] at kept
    exact ⟨handled, kept⟩
  | inr shell =>
    obtain ⟨action, moved, rfl⟩ := shell
    cases here : s.pc with
    | prompt => exact ⟨_, inv.prompt here moved⟩
    | poll => exact ⟨_, inv.poll here moved⟩
    | getKey => exact ⟨_, inv.getKey here moved⟩
    | dispatch key => exact inv.dispatch here moved
    | parse => exact ⟨_, inv.parse here moved⟩
    | halted | gui => simp [lshLoop, here] at moved

/-- Where `lsh_loop` starts: nothing typed, nothing queued. -/
structure Start (s : Machine) : Prop where
  pc : s.pc = .prompt
  cliLen : s.cli.cliLen = 0
  idle : s.keyboard.sawBreakCode = 0
  queue : s.keyboard.kbdBuffer.Wf
  size : s.keyboard.kbdBuffer.size = 64
  empty : s.keyboard.kbdBuffer.inPtr = s.keyboard.kbdBuffer.outPtr

theorem run_invariant {start : Machine} (initial : Start start)
    (run : Run Machine.Step start labels s) : ∃ handled, Invariant labels s handled := by
  induction run with
  | nil =>
    have nothing := (FifoQueue.contents_eq_nil initial.queue).mpr initial.empty
    refine ⟨[], initial.idle, initial.queue, initial.size, by simp [accepted], ?_, ?_, rfl, ?_, ?_,
      fun _ => rfl, ?_⟩
    · rw [initial.pc]
      rfl
    · rw [nothing]
      rfl
    · rw [initial.cliLen]
      decide
    · intro editing
      rw [initial.pc] at editing
      exact editing.elim
    · intro impossible
      rw [initial.pc] at impossible
      exact ShellPc.noConfusion impossible
  | snoc _ step ih =>
    obtain ⟨handled, inv⟩ := ih
    exact inv.step step

theorem Invariant.rejects_full (inv : Invariant labels s handled) {s' : Machine}
    {label : MachineLabel} (step : s.Step label s') (rejected : rejects label) :
    (accepted labels).length = (consumed labels).length + 63 := by
  cases Machine.step_cases step with
  | inl interrupted =>
    obtain ⟨scancode, same⟩ := interrupted
    have calls := congrArg Prod.snd (keyboardCallback_correct scancode s.keyboard inv.idle).queue
    obtain ⟨-, -, full⟩ := feed_flow inv.queue
      (decoded (shiftOn s.keyboard.kbdStatus) scancode) (fun _ found => decoded_nonzero found)
    cases same
    simp only at calls
    rw [calls] at rejected
    have pending := full rejected
    rw [inv.size] at pending
    rw [inv.flow, List.length_append]
    omega
  | inr shell =>
    obtain ⟨action, -, rfl⟩ := shell
    exact rejected.elim

theorem Invariant.seen_prefix (inv : Invariant labels s handled) :
    seen labels <+: (segments newline (accepted labels)).map edit := by
  rw [inv.lines, inv.flow, inv.taken, List.append_assoc]
  exact (segments_append newline handled _).map edit

/--
Whatever the order of interrupts and shell steps: the lines `parse_cli` sees are the accepted
segments, edited, in order, and all of them once the shell waits with an empty queue; the accepted
keys are the ones taken and the ones pending; a key is turned away only by 63 pending ones; and
while the line is short enough, the shell is never stuck.
-/
theorem keys_reach_parseCli (start s : Machine) (labels : List MachineLabel)
    (initial : Start start) (run : Run Machine.Step start labels s) :
    (∀ (i : Nat) line, (seen labels)[i]? = some line →
      ∃ segment, (segments newline (accepted labels))[i]? = some segment ∧ line = edit segment) ∧
    (s.pc = .poll → s.keyboard.kbdBuffer.contents = [] →
      seen labels = (segments newline (accepted labels)).map edit) ∧
    accepted labels = consumed labels ++ s.keyboard.kbdBuffer.contents ∧
    (∀ earlier label later, labels = earlier ++ label :: later → rejects label →
      (accepted earlier).length = (consumed earlier).length + 63) ∧
    (s.cli.cliLen ≤ 255 → s.pc ≠ .halted → s.pc ≠ .gui → (lshLoop s).isSome) := by
  obtain ⟨handled, inv⟩ := run_invariant initial run
  refine ⟨?_, ?_, inv.flow, ?_, lshLoop_progress s⟩
  · intro i line found
    obtain ⟨more, whole⟩ := inv.seen_prefix
    have within : i < (seen labels).length := (List.getElem?_eq_some_iff.mp found).1
    have same : ((segments newline (accepted labels)).map edit)[i]? = some line := by
      rw [← whole, List.getElem?_append_left within, found]
    rw [List.getElem?_map] at same
    obtain ⟨segment, at_, rfl⟩ := Option.map_eq_some_iff.mp same
    exact ⟨segment, at_, rfl⟩
  · intro waiting empty
    rw [inv.lines, inv.flow, inv.taken, waiting, empty, List.append_nil]
    exact congrArg (fun keys => (segments newline keys).map edit) (List.append_nil handled).symm
  · intro earlier label later split rejected
    rw [split, List.append_cons] at run
    obtain ⟨t, first⟩ := run.upTo
    obtain ⟨before, prior, taken⟩ := first.last
    obtain ⟨done, held⟩ := run_invariant initial prior
    exact held.rejects_full taken rejected

def initial : Machine :=
  { pc := .prompt, cli := { cliLen := 0, cli := Vector.replicate 256 0 },
    keyboard := Keyboard.initial }

theorem initial_start : Start initial :=
  ⟨rfl, rfl, rfl, (declareFifoQueue_correct (by decide)).1, rfl, rfl⟩

-- two keys arrive before the shell looks, and it takes them one by one
def oneLine : List (Option UInt8) :=
  [none, some 0x1E, some 0x1C, none, none, none, none, none, none, none]

theorem oneLine_plays : (initial.play oneLine).isSome := by
  decide +kernel

theorem keys_reach_parseCli_oneLine : ∃ labels s, initial.play oneLine = some (labels, s) ∧
    ∃ segment, (segments newline (accepted labels))[0]? = some segment ∧
      [chr 'a'] = edit segment := by
  have parsed : (seen ((initial.play oneLine).get oneLine_plays).1)[0]? = some [chr 'a'] := by
    decide +kernel
  have played := (Option.some_get oneLine_plays).symm
  exact ⟨_, _, played, (keys_reach_parseCli initial _ _ initial_start
    (Machine.play_run played)).1 0 _ parsed⟩

end GekonOS.Line
