import GekonOS.Input.Session
import GekonOS.Shared.Transition

set_option autoImplicit false

namespace GekonOS.Leds

open Transition

/-!
# The driver and the keyboard

The bytes that the driver sends are answered by the keyboard among the scancodes.
-/

/-! ## The keyboard -/

-- what the keyboard has to deliver
inductive Output where
  | key (scancode : UInt8)
  | reply (byte : UInt8)
deriving DecidableEq

def Output.byte : Output → UInt8
  | .key scancode => scancode
  | .reply byte => byte

structure Device where
  leds : Nat
  -- the last byte was the command that sets the lights
  expecting : Bool
  output : List Output
deriving DecidableEq

def acknowledged : UInt8 := 0xFA
def resend : UInt8 := 0xFE

/-- A byte that is sent to the keyboard; any other command is not understood. -/
def Device.receive (d : Device) (byte : Nat) : Device :=
  if byte = 0xED then { d with expecting := true, output := d.output ++ [.reply acknowledged] }
  else if d.expecting ∧ byte < 8 then
    { leds := byte, expecting := false, output := d.output ++ [.reply acknowledged] }
  else { d with output := d.output ++ [.reply resend] }

/-! ## Both together -/

structure State where
  driver : Keyboard
  device : Device

def initial : State :=
  { driver := Keyboard.initial, device := { leds := 0, expecting := false, output := [] } }

inductive Label where
  | press (scancode : UInt8)
  -- an interrupt, with what port 0x64 answers to the first and to the second `write_kbd`
  | interrupt (first second : Nat → UInt8)
  | read

-- the calls of `write_kbd`
def calls (effects : List KeyboardEffect) : List (Nat × Nat) :=
  effects.filterMap fun
    | .writeKbd adr data => some (adr, data)
    | _ => none

-- what comes through to the keyboard
def arriving (first second : Nat → UInt8) (effects : List KeyboardEffect) : List (Nat × Nat) :=
  ([first, second].zip (calls effects)).flatMap fun call => writeKbd call.1 call.2.1 call.2.2

def Device.deliver (d : Device) (writes : List (Nat × Nat)) : Device :=
  writes.foldl (fun d write => if write.1 = 0x60 then d.receive write.2 else d) d

inductive Step : State → Label → State → Prop
  | press {s : State} {scancode : UInt8} : Step s (.press scancode)
      { s with device := { s.device with output := s.device.output ++ [.key scancode] } }
  | interrupt {s : State} {first second : Nat → UInt8} {next : Output} {rest : List Output} :
      s.device.output = next :: rest →
      Step s (.interrupt first second)
        { driver := (keyboardCallback next.byte s.driver).1
          device := Device.deliver { s.device with output := rest }
            (arriving first second (keyboardCallback next.byte s.driver).2) }
  | read {s : State} : Step s .read { s with driver := (kbdGetKey s.driver).2 }

-- the keys among what is delivered, and those of a run
def keys (output : List Output) : List UInt8 :=
  output.filterMap fun
    | .key scancode => some scancode
    | .reply _ => none

def pressed (labels : List Label) : List UInt8 :=
  labels.filterMap fun
    | .press scancode => some scancode
    | _ => none

/-! ## The answers of the keyboard -/

-- each reply is taken for the release of a key that there is not
def Harmless (output : List Output) : Prop :=
  ∀ byte, .reply byte ∈ output → byte = acknowledged ∨ byte = resend

theorem reply_ignored (k : Keyboard) (idle : k.sawBreakCode = 0) {byte : UInt8}
    (harmless : byte = acknowledged ∨ byte = resend) : keyboardCallback byte k = (k, []) := by
  obtain ⟨status, saw, buffer⟩ := k
  obtain rfl : saw = 0 := idle
  rcases harmless with rfl | rfl <;> rfl

theorem keys_append (output more : List Output) :
    keys (output ++ more) = keys output ++ keys more :=
  List.filterMap_append

-- the keyboard answers with replies only
structure Answers (d d' : Device) : Prop where
  keys : keys d'.output = keys d.output
  harmless : Harmless d.output → Harmless d'.output

theorem Answers.reply {d : Device} {leds : Nat} {expecting : Bool} {byte : UInt8}
    (harmless : byte = acknowledged ∨ byte = resend) : Answers d
      { leds := leds, expecting := expecting, output := d.output ++ [.reply byte] } := by
  constructor
  case keys =>
    rw [keys_append]
    exact List.append_nil _
  case harmless =>
    intro before other member
    rw [List.mem_append, List.mem_singleton, Output.reply.injEq] at member
    cases member with
    | inl old => exact before other old
    | inr new => exact new ▸ harmless

theorem receive_answers (d : Device) (byte : Nat) : Answers d (d.receive byte) := by
  unfold Device.receive
  split
  next => exact Answers.reply (Or.inl rfl)
  next =>
    split
    next => exact Answers.reply (Or.inl rfl)
    next => exact Answers.reply (Or.inr rfl)

theorem deliver_answers (d : Device) (writes : List (Nat × Nat)) :
    Answers d (d.deliver writes) := by
  induction writes generalizing d with
  | nil => exact ⟨rfl, id⟩
  | cons write writes ih =>
    change Answers d (Device.deliver (if write.1 = 0x60 then d.receive write.2 else d) writes)
    by_cases data : write.1 = 0x60
    · rw [if_pos data]
      have first := receive_answers d write.2
      have later := ih (d.receive write.2)
      exact ⟨later.keys.trans first.keys, fun before => later.harmless (first.harmless before)⟩
    · rw [if_neg data]
      exact ih d

/-- What the driver has seen of the keys of a run, the rest being on its way. -/
structure Seen (labels : List Label) (s : State) (events : List KeyboardEvent) : Prop where
  driver : s.driver = session events
  keys : pressed labels = scancodes events ++ keys s.device.output
  harmless : Harmless s.device.output

theorem pressed_append (labels : List Label) (label : Label) :
    pressed (labels ++ [label]) = pressed labels ++ pressed [label] :=
  List.filterMap_append

theorem Seen.step {labels : List Label} {s t : State} {events : List KeyboardEvent} {label : Label}
    (seen : Seen labels s events) (step : Step s label t) :
    ∃ events', Seen (labels ++ [label]) t events' := by
  cases step with
  | press =>
    rename_i scancode
    refine ⟨events, seen.driver, ?_, ?_⟩
    · rw [pressed_append, seen.keys, keys_append, List.append_assoc]
      rfl
    · intro byte member
      rw [List.mem_append, List.mem_singleton] at member
      cases member with
      | inl old => exact seen.harmless byte old
      | inr new => cases new
  | interrupt arrives =>
    rename_i first second next rest
    have answers := deliver_answers { s.device with output := rest }
      (arriving first second (keyboardCallback next.byte s.driver).2)
    have quiet : pressed (labels ++ [.interrupt first second]) = pressed labels := by
      rw [pressed_append]
      exact List.append_nil _
    have harmless : Harmless rest := fun byte member =>
      seen.harmless byte (by rw [arrives]; exact List.mem_cons_of_mem _ member)
    have before := seen.keys
    rw [arrives] at before
    cases next with
    | key scancode =>
      refine ⟨events ++ [.scan scancode], ?_, ?_, answers.harmless harmless⟩
      · rw [session_append, ← seen.driver]
        rfl
      · rw [quiet, before, answers.keys, scancodes_scan, List.append_assoc]
        rfl
    | reply byte =>
      have known := seen.harmless byte (by rw [arrives]; exact List.mem_cons_self)
      have idle : s.driver.sawBreakCode = 0 := seen.driver ▸ (session_tracked events).idle
      refine ⟨events, ?_, ?_, answers.harmless harmless⟩
      · change (keyboardCallback byte s.driver).1 = _
        rw [reply_ignored s.driver idle known, seen.driver]
      · rw [quiet, before, answers.keys]
        rfl
  | read =>
    refine ⟨events ++ [.read], ?_, ?_, seen.harmless⟩
    · rw [session_append, ← seen.driver]
      rfl
    · rw [pressed_append, scancodes_read, seen.keys]
      exact List.append_nil _

theorem run_seen {labels : List Label} {s : State} (run : Run Step initial labels s) :
    ∃ events, Seen labels s events := by
  induction run with
  | nil => exact ⟨[], rfl, rfl, fun byte member => by cases member⟩
  | snoc _ taken ih =>
    obtain ⟨events, seen⟩ := ih
    exact seen.step taken

/-! ## The lights -/

inductive Lock
  | scroll | num | caps
deriving DecidableEq

def Lock.code : Lock → Nat
  | .scroll => raw1ScrollLock
  | .num => raw1NumLock
  | .caps => raw1CapsLock

-- the bit of `kbd_status`, and that of the byte for the lights
def Lock.bit : Lock → Nat
  | .scroll => 14
  | .num => 13
  | .caps => 12

def Lock.led : Lock → Nat
  | .scroll => 0
  | .num => 1
  | .caps => 2

def lights (status : BitVec 16) : Nat :=
  (if status &&& kbdMetaScrl ≠ 0 then 1 else 0) ||| (if status &&& kbdMetaNum ≠ 0 then 2 else 0) |||
    (if status &&& kbdMetaCaps ≠ 0 then 4 else 0)

theorem and_twoPow_ne (status : BitVec 16) (i : Nat) (within : i < 16) :
    status &&& BitVec.twoPow 16 i ≠ 0 ↔ status.getLsbD i = true := by
  have nonzero : BitVec.twoPow 16 i ≠ 0#16 := by
    intro zero
    have bit := congrArg (fun v => v.getLsbD i) zero
    simp [within] at bit
  rw [BitVec.and_twoPow]
  cases status.getLsbD i <;> simp [nonzero]

theorem lights_correct (status : BitVec 16) : lights status < 8 ∧
    ∀ lock : Lock, (lights status).testBit lock.led = status.getLsbD lock.bit := by
  have masks : kbdMetaScrl = BitVec.twoPow 16 Lock.scroll.bit ∧
      kbdMetaNum = BitVec.twoPow 16 Lock.num.bit ∧
      kbdMetaCaps = BitVec.twoPow 16 Lock.caps.bit := by decide
  have within (lock : Lock) : lock.bit < 16 := by
    cases lock <;> decide
  simp only [lights, masks, and_twoPow_ne status _ (within _)]
  constructor
  · generalize status.getLsbD Lock.scroll.bit = scroll
    generalize status.getLsbD Lock.num.bit = num
    generalize status.getLsbD Lock.caps.bit = caps
    revert scroll num caps
    decide
  · intro lock
    cases lock <;>
    · generalize status.getLsbD Lock.scroll.bit = scroll
      generalize status.getLsbD Lock.num.bit = num
      generalize status.getLsbD Lock.caps.bit = caps
      revert scroll num caps
      decide

theorem lights_congr {status status' : BitVec 16}
    (same : ∀ lock : Lock, status'.getLsbD lock.bit = status.getLsbD lock.bit) :
    lights status' = lights status := by
  apply Nat.eq_of_testBit_eq
  intro i
  by_cases low : i < 3
  · have lock : ∃ lock : Lock, lock.led = i := by
      rcases (show i = 0 ∨ i = 1 ∨ i = 2 by omega) with rfl | rfl | rfl
      · exact ⟨.scroll, rfl⟩
      · exact ⟨.num, rfl⟩
      · exact ⟨.caps, rfl⟩
    obtain ⟨lock, rfl⟩ := lock
    rw [(lights_correct status').2 lock, (lights_correct status).2 lock, same lock]
  · have high (status : BitVec 16) : (lights status).testBit i = false :=
      Nat.testBit_lt_two_pow (Nat.lt_of_lt_of_le (lights_correct status).1
        (Nat.pow_le_pow_right (by omega : 0 < 2) (by omega : 3 ≤ i)))
    rw [high, high]

/-- What an interrupt does to the locks and sends to the keyboard. -/
structure Signals (scancode : UInt8) (k k' : Keyboard) (effects : List KeyboardEffect) : Prop where
  locks : ∀ lock : Lock, k'.kbdStatus.getLsbD lock.bit =
    (k.kbdStatus.getLsbD lock.bit ^^ decide (scancode.toNat = lock.code))
  sent : calls effects = if IsLock scancode.toNat then
    [(0x60, 0xED), (0x60, lights k'.kbdStatus)] else []

theorem writeLeds_calls (k : Keyboard) :
    calls (writeLeds k).2 = [(0x60, 0xED), (0x60, lights k.kbdStatus)] := by
  unfold writeLeds lights
  split <;> split <;> split <;> rfl

theorem Lock.code_lt (lock : Lock) : lock.code < 128 := by
  cases lock <;> decide

theorem isLock_iff (code : Nat) : IsLock code ↔ ∃ lock : Lock, code = lock.code := by
  constructor
  · rintro (scroll | num | caps)
    · exact ⟨.scroll, scroll⟩
    · exact ⟨.num, num⟩
    · exact ⟨.caps, caps⟩
  · rintro ⟨lock, rfl⟩
    cases lock <;> decide

-- the modifiers have bits of their own
theorem modifier_bits (lock : Lock) : lock.bit < 16 ∧ kbdMetaAlt.getLsbD lock.bit = false ∧
    kbdMetaCtrl.getLsbD lock.bit = false ∧ kbdMetaShift.getLsbD lock.bit = false := by
  cases lock <;> decide

-- a bit that is not in the mask
theorem unmasked_bit (status : BitVec 16) {mask : BitVec 16} {bit : Nat} (within : bit < 16)
    (free : mask.getLsbD bit = false) :
    (status &&& ~~~mask).getLsbD bit = status.getLsbD bit ∧
      (status ||| mask).getLsbD bit = status.getLsbD bit := by
  rw [BitVec.getLsbD_and, BitVec.getLsbD_not, BitVec.getLsbD_or, free]
  simp only [within, decide_true, Bool.not_false, Bool.and_self, Bool.and_true, Bool.or_false,
    and_self]

theorem Signals.quiet {scancode : UInt8} {k k' : Keyboard} {effects : List KeyboardEffect}
    (other : ¬ IsLock scancode.toNat) (silent : calls effects = [])
    (same : ∀ lock : Lock, k'.kbdStatus.getLsbD lock.bit = k.kbdStatus.getLsbD lock.bit) :
    Signals scancode k k' effects := by
  constructor
  case locks =>
    intro lock
    have differs : scancode.toNat ≠ lock.code := fun is => other ((isLock_iff _).mpr ⟨lock, is⟩)
    rw [same lock, decide_eq_false differs, Bool.xor_false]
  case sent => rw [if_neg other, silent]

theorem Signals.toggle {scancode : UInt8} {k : Keyboard} {mask : BitVec 16} (lock : Lock)
    (is : scancode.toNat = lock.code) (bit : mask = BitVec.twoPow 16 lock.bit) :
    Signals scancode k (writeLeds { k with kbdStatus := k.kbdStatus ^^^ mask, sawBreakCode := 0 }).1
      (writeLeds { k with kbdStatus := k.kbdStatus ^^^ mask, sawBreakCode := 0 }).2 := by
  constructor
  case locks =>
    intro other
    change (k.kbdStatus ^^^ mask).getLsbD other.bit = _
    rw [BitVec.getLsbD_xor, bit, is]
    congr 1
    cases lock <;> cases other <;> decide
  case sent =>
    rw [if_pos ((isLock_iff _).mpr ⟨lock, is⟩)]
    exact writeLeds_calls _

theorem enqueue_calls (code : Nat) (temp converted : UInt8) (k : Keyboard) :
    calls (enqueue code temp converted k).2 = [] := by
  have printed (condition : Prop) [Decidable condition] (text : String) :
      calls (if condition then [.kprintf text] else []) = [] := by
    split <;> rfl
  unfold enqueue
  by_cases outside : code > 0x58
  · simp only [outside, if_true, printed]
  · by_cases function : converted ≥ F1 ∧ converted ≤ F11
    · simp only [if_neg outside, function, and_self, if_true, printed]
    · simp only [outside, function, if_false, calls, List.filterMap_append]
      exact congrArg (· ++ []) (printed _ _)

theorem keyboardCallback_signals (scancode : UInt8) (k : Keyboard) (idle : k.sawBreakCode = 0) :
    Signals scancode k (keyboardCallback scancode k).1 (keyboardCallback scancode k).2 := by
  by_cases isBreak : scancode.toNat ≥ 0x80
  · have seen : (1 : BitVec 16) ≠ 0 := by decide
    have other : ¬ IsLock scancode.toNat := by
      rw [isLock_iff]
      rintro ⟨lock, is⟩
      have := lock.code_lt
      omega
    simp only [keyboardCallback, if_pos isBreak, if_pos seen]
    refine Signals.quiet other rfl ?_
    intro lock
    obtain ⟨within, alt, ctrl, shift⟩ := modifier_bits lock
    split
    next => exact (unmasked_bit _ within alt).1
    next =>
      split
      next => exact (unmasked_bit _ within ctrl).1
      next =>
        split
        next => exact (unmasked_bit _ within shift).1
        next => rfl
  simp only [keyboardCallback, if_neg isBreak, idle, ne_eq, not_true, if_false]
  by_cases isLock : IsLock scancode.toNat
  · have plain : ¬ (scancode.toNat = raw1LeftAlt ∨ scancode.toNat = raw1RightAlt) ∧
        ¬ (scancode.toNat = raw1LeftCtrl ∨ scancode.toNat = raw1RightCtrl) ∧
        ¬ (scancode.toNat = raw1LeftShift ∨ scancode.toNat = raw1RightShift) := by
      rcases isLock with is | is | is <;> rw [is] <;> decide
    rw [if_neg plain.1, if_neg plain.2.1, if_neg plain.2.2]
    obtain ⟨lock, is⟩ := (isLock_iff _).mp isLock
    cases lock with
    | scroll =>
      rw [if_pos (show scancode.toNat = raw1ScrollLock from is)]
      exact Signals.toggle .scroll is (by decide)
    | num =>
      have first : ¬ scancode.toNat = raw1ScrollLock := by
        rw [is]
        decide
      rw [if_neg first, if_pos (show scancode.toNat = raw1NumLock from is)]
      exact Signals.toggle .num is (by decide)
    | caps =>
      have first : ¬ scancode.toNat = raw1ScrollLock ∧ ¬ scancode.toNat = raw1NumLock := by
        rw [is]
        decide
      rw [if_neg first.1, if_neg first.2, if_pos (show scancode.toNat = raw1CapsLock from is)]
      exact Signals.toggle .caps is (by decide)
  · have others : ¬ scancode.toNat = raw1ScrollLock ∧ ¬ scancode.toNat = raw1NumLock ∧
        ¬ scancode.toNat = raw1CapsLock := by
      simpa only [IsLock, not_or] using isLock
    rw [if_neg others.1, if_neg others.2.1, if_neg others.2.2]
    by_cases alt : scancode.toNat = raw1LeftAlt ∨ scancode.toNat = raw1RightAlt
    · rw [if_pos alt]
      exact Signals.quiet isLock rfl fun lock =>
        (unmasked_bit _ (modifier_bits lock).1 (modifier_bits lock).2.1).2
    rw [if_neg alt]
    by_cases ctrl : scancode.toNat = raw1LeftCtrl ∨ scancode.toNat = raw1RightCtrl
    · rw [if_pos ctrl]
      exact Signals.quiet isLock rfl fun lock =>
        (unmasked_bit _ (modifier_bits lock).1 (modifier_bits lock).2.2.1).2
    rw [if_neg ctrl]
    by_cases shift : scancode.toNat = raw1LeftShift ∨ scancode.toNat = raw1RightShift
    · rw [if_pos shift]
      exact Signals.quiet isLock rfl fun lock =>
        (unmasked_bit _ (modifier_bits lock).1 (modifier_bits lock).2.2.2).2
    rw [if_neg shift]
    cases translate k.kbdStatus scancode.toNat with
    | none => exact Signals.quiet isLock rfl fun _ => rfl
    | some pair =>
      refine Signals.quiet isLock (enqueue_calls _ _ _ _) fun lock => ?_
      exact congrArg (fun status => status.getLsbD lock.bit)
        (enqueue_correct scancode.toNat pair.1 pair.2 { k with sawBreakCode := 0 }).1

/-! ## In time -/

-- the controller is free before `write_kbd` gives up
def InTime (stat : Nat → UInt8) : Prop := ∃ i < 500000, stat i &&& 2 = 0

def Label.InTime : Label → Prop
  | .interrupt first second => Leds.InTime first ∧ Leds.InTime second
  | _ => True

theorem writeKbdLoop_iff (stat : Nat → UInt8) (timeout : Nat) :
    writeKbdLoop stat timeout ≠ 0 ↔ ∃ i < timeout, stat i &&& 2 = 0 := by
  induction timeout generalizing stat with
  | zero => simp [writeKbdLoop]
  | succ timeout ih =>
    rw [writeKbdLoop]
    by_cases free : stat 0 &&& 2 = 0
    · rw [if_pos free]
      exact ⟨fun _ => ⟨0, by omega, free⟩, fun _ => by omega⟩
    · rw [if_neg free, ih]
      constructor
      · rintro ⟨i, within, later⟩
        exact ⟨i + 1, by omega, later⟩
      · rintro ⟨i, within, later⟩
        cases i with
        | zero => exact absurd later free
        | succ i => exact ⟨i, by omega, later⟩

theorem writeKbd_inTime {stat : Nat → UInt8} (inTime : InTime stat) (adr data : Nat) :
    writeKbd stat adr data = [(adr, data)] :=
  if_pos ((writeKbdLoop_iff stat 500000).mpr inTime)

-- the lights are as the driver wants them
def Lit (s : State) : Prop :=
  s.device.expecting = false ∧ s.device.leds = lights s.driver.kbdStatus

theorem Lit.step {s t : State} {label : Label} (lit : Lit s) (idle : s.driver.sawBreakCode = 0)
    (inTime : label.InTime) (step : Step s label t) : Lit t := by
  cases step with
  | press => exact lit
  | interrupt arrives =>
    rename_i first second next rest
    have signals := keyboardCallback_signals next.byte s.driver idle
    have sent := signals.sent
    by_cases isLock : IsLock next.byte.toNat
    · rw [if_pos isLock] at sent
      have small := (lights_correct (keyboardCallback next.byte s.driver).1.kbdStatus).1
      change Lit { driver := _, device := Device.deliver _ (arriving first second _) }
      rw [arriving, sent]
      generalize (keyboardCallback next.byte s.driver).1 = k at small ⊢
      have both : ([first, second].zip [(0x60, 0xED), (0x60, lights k.kbdStatus)]).flatMap
          (fun call => writeKbd call.1 call.2.1 call.2.2) =
          [(0x60, 0xED), (0x60, lights k.kbdStatus)] := by
        simp [writeKbd_inTime inTime.1, writeKbd_inTime inTime.2]
      have other : lights k.kbdStatus ≠ 0xED := by omega
      rw [both]
      simp [Lit, Device.deliver, Device.receive, small, other]
    · rw [if_neg isLock] at sent
      change Lit { driver := _, device := Device.deliver _ (arriving first second _) }
      rw [arriving, sent]
      refine ⟨lit.1, lit.2.trans (lights_congr fun lock => ?_).symm⟩
      have differs : next.byte.toNat ≠ lock.code := fun is => isLock ((isLock_iff _).mpr ⟨lock, is⟩)
      rw [signals.locks lock, decide_eq_false differs, Bool.xor_false]
  | read => exact lit

theorem session_locks (events : List KeyboardEvent) (lock : Lock) :
    (session events).kbdStatus.getLsbD lock.bit =
      decide ((scancodes events).count (UInt8.ofNat lock.code) % 2 = 1) := by
  induction events using List.reverseRecOn with
  | nil => cases lock <;> decide
  | append_singleton events event ih =>
    rw [session_append]
    cases event with
    | scan scancode =>
      have signals :=
        keyboardCallback_signals scancode (session events) (session_tracked events).idle
      have same : scancode.toNat = lock.code ↔ scancode = UInt8.ofNat lock.code := by
        have small := lock.code_lt
        rw [← UInt8.toNat_inj, UInt8.toNat_ofNat', Nat.mod_eq_of_lt (by omega)]
      change (keyboardCallback scancode (session events)).1.kbdStatus.getLsbD lock.bit = _
      rw [signals.locks lock, ih, scancodes_scan, List.count_append]
      by_cases is : scancode = UInt8.ofNat lock.code
      · rw [decide_eq_true (same.mpr is), is, List.count_singleton_self, Bool.xor_true,
          ← decide_not]
        exact decide_eq_decide.mpr (by omega)
      · rw [decide_eq_false (fun h => is (same.mp h)), Bool.xor_false]
        simp [is]
    | read =>
      rw [scancodes_read, ← ih]
      rfl

/-! ## Over a run -/

theorem run_lit {labels : List Label} {s : State} (run : Run Step initial labels s)
    (inTime : ∀ label ∈ labels, label.InTime) : Lit s := by
  induction run with
  | nil => exact ⟨rfl, rfl⟩
  | snoc before taken ih =>
    obtain ⟨events, seen⟩ := run_seen before
    refine Lit.step (ih fun label member => inTime label (List.mem_append_left _ member))
      (seen.driver ▸ (session_tracked events).idle) (inTime _ (by simp)) taken

/-- In every run the driver is where the keys alone have brought it, none of which is lost; and
in time each light shows whether the key of its lock was seen an odd number of times. -/
theorem leds_show_locks {labels : List Label} {s : State} (run : Run Step initial labels s) :
    ∃ events, s.driver = session events ∧
      pressed labels = scancodes events ++ keys s.device.output ∧
      ((∀ label ∈ labels, label.InTime) → s.device.expecting = false ∧ s.device.leds < 8 ∧
        ∀ lock : Lock, s.device.leds.testBit lock.led =
          decide ((scancodes events).count (UInt8.ofNat lock.code) % 2 = 1)) := by
  obtain ⟨events, seen⟩ := run_seen run
  refine ⟨events, seen.driver, seen.keys, ?_⟩
  intro inTime
  obtain ⟨ready, lit⟩ := run_lit run inTime
  refine ⟨ready, ?_, ?_⟩
  · rw [lit]
    exact (lights_correct _).1
  · intro lock
    rw [lit, (lights_correct _).2 lock, seen.driver, session_locks]

-- caps lock is pressed and seen, and then the first of the two acknowledgements
theorem leds_show_locks_caps : ∃ s : State,
    s.device.leds = 4 ∧ s.device.output = [.reply acknowledged] ∧
    ∃ events, s.driver = session events ∧ [0x3A] = scancodes events ++ keys s.device.output ∧
      s.device.leds.testBit Lock.caps.led =
        decide ((scancodes events).count (UInt8.ofNat Lock.caps.code) % 2 = 1) := by
  have free : InTime fun _ => 0 := ⟨0, by omega, rfl⟩
  have run := ((Run.nil.snoc (@Step.press initial 0x3A)).snoc
    (@Step.interrupt _ (fun _ => 0) (fun _ => 0) _ _ rfl)).snoc
    (@Step.interrupt _ (fun _ => 0) (fun _ => 0) _ _ rfl)
  obtain ⟨events, driver, keys, lit⟩ := leds_show_locks run
  refine ⟨_, ?_, ?_, events, driver, keys, (lit ?_).2.2 .caps⟩
  · decide +kernel
  · decide +kernel
  · intro label member
    simp only [List.nil_append, List.cons_append, List.mem_cons, List.not_mem_nil, or_false]
      at member
    rcases member with rfl | rfl | rfl
    · trivial
    · exact ⟨free, free⟩
    · exact ⟨free, free⟩

end GekonOS.Leds
