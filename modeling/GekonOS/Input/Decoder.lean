import GekonOS.Input.Session

set_option autoImplicit false

namespace GekonOS.Decoder

/-!
# The reference decoder

`none` where nothing is said about a key, `some none` for a key that enqueues nothing.
-/

-- the letter keys by row, from the code of the first one
def rows : List (Nat × List UInt8) :=
  [(0x10, "qwertyuiop".toList.map chr), (0x1E, "asdfghjkl".toList.map chr),
    (0x2C, "zxcvbnm".toList.map chr)]

def letter (code : Nat) : Option UInt8 :=
  rows.findSome? fun row => if row.1 ≤ code then row.2[code - row.1]? else none

def upperCase (lower : UInt8) : UInt8 := lower - 32

def IsFunctionKey (code : Nat) : Prop := (0x3B ≤ code ∧ code ≤ 0x44) ∨ code = 0x57 ∨ code = 0x58

instance (code : Nat) : Decidable (IsFunctionKey code) := inferInstanceAs (Decidable (_ ∨ _))

def IsKeypad (code : Nat) : Prop := 0x47 ≤ code ∧ code ≤ 0x53

instance (code : Nat) : Decidable (IsKeypad code) := inferInstanceAs (Decidable (_ ∧ _))

def reference (shift caps : Bool) (scancode : UInt8) : Option (Option UInt8) :=
  let code := scancode.toNat
  if IsBreak scancode ∨ IsModifier code ∨ IsLock code ∨ IsFunctionKey code then some none
  else if IsKeypad code then some normalMap[code]?
  else (letter code).map fun lower => some (if shift ≠ caps then upperCase lower else lower)

/-- The keys on which the tables and the CapsLock branch of the callback go wrong. -/
def Affected (shift caps : Bool) (scancode : UInt8) : Prop :=
  let code := scancode.toNat
  ((letter code).isSome ∧ caps) ∨ (0x4A ≤ code ∧ code ≤ 0x53 ∧ shift) ∨
    (code = 0x57 ∧ shift) ∨ (code = 0x58 ∧ ¬ shift)

instance (shift caps : Bool) (scancode : UInt8) : Decidable (Affected shift caps scancode) :=
  inferInstanceAs (Decidable (_ ∨ _))

def Agrees (shift caps : Bool) (scancode : UInt8) (out : List UInt8) : Prop :=
  ∀ expected, reference shift caps scancode = some expected → out = expected.toList

instance (shift caps : Bool) (scancode : UInt8) (out : List UInt8) :
    Decidable (Agrees shift caps scancode out) :=
  match expects : reference shift caps scancode with
  | none => isTrue fun expected isSome => by simp [expects] at isSome
  | some expected => decidable_of_iff (out = expected.toList) (by simp [Agrees, expects])

theorem agrees_table (shift caps : Bool) : ∀ n < 256,
    Agrees shift caps (UInt8.ofNat n) (decoded shift (UInt8.ofNat n)).toList ↔
      ¬ Affected shift caps (UInt8.ofNat n) := by
  cases shift <;> cases caps <;> decide +kernel

theorem agrees_iff (shift caps : Bool) (scancode : UInt8) :
    Agrees shift caps scancode (decoded shift scancode).toList ↔ ¬ Affected shift caps scancode := by
  have entry := agrees_table shift caps scancode.toNat scancode.toNat_lt
  rwa [UInt8.ofNat_toNat] at entry

-- the bytes that went into the queue
def enqueued (scancode : UInt8) (k : Keyboard) : List UInt8 :=
  (inserts (keyboardCallback scancode k).2).filterMap fun call =>
    if call.2 = 0 then some call.1 else none

def HasRoom (k : Keyboard) : Prop := k.kbdBuffer.count + 1 < k.kbdBuffer.size

instance (k : Keyboard) : Decidable (HasRoom k) := inferInstanceAs (Decidable (_ < _))

def RoomAtScans (events : List KeyboardEvent) : Prop :=
  ∀ n < events.length, events[n]? ≠ some .read → HasRoom (session (events.take n))

instance (events : List KeyboardEvent) : Decidable (RoomAtScans events) :=
  inferInstanceAs (Decidable (∀ n < events.length, _ → _))

def shiftBefore (events : List KeyboardEvent) (n : Nat) : Bool :=
  shiftAfter (scancodes (events.take n))

def capsBefore (events : List KeyboardEvent) (n : Nat) : Bool :=
  decide (capsPresses (scancodes (events.take n)) % 2 = 1)

/-- Every interrupt of the session enqueues what the reference decoder says. -/
def Decodes (events : List KeyboardEvent) : Prop :=
  ∀ n scancode, events[n]? = some (.scan scancode) →
    Agrees (shiftBefore events n) (capsBefore events n) scancode
      (enqueued scancode (session (events.take n)))

theorem enqueued_correct {codes : List UInt8} {k : Keyboard} (scancode : UInt8)
    (tracked : Tracked codes k) (room : HasRoom k) :
    enqueued scancode k = (decoded (shiftAfter codes) scancode).toList := by
  have calls := congrArg Prod.snd (keyboardCallback_correct scancode k tracked.idle).queue
  simp only [tracked.shift] at calls
  rw [enqueued, calls]
  cases decoded (shiftAfter codes) scancode with
  | none => rfl
  | some key =>
    obtain ⟨fifo, inserted, -⟩ :=
      fifoInsert_accepted tracked.queue key (Nat.ne_of_lt room)
    simp [feed, inserted]

/-- A session decodes as the reference does exactly when it stays off the affected keys. -/
theorem decodes_iff (events : List KeyboardEvent) (room : RoomAtScans events) :
    Decodes events ↔ ∀ n scancode, events[n]? = some (.scan scancode) →
      ¬ Affected (shiftBefore events n) (capsBefore events n) scancode := by
  have pointwise (n : Nat) (scancode : UInt8) (scanned : events[n]? = some (.scan scancode)) :
      Agrees (shiftBefore events n) (capsBefore events n) scancode
        (enqueued scancode (session (events.take n))) ↔
        ¬ Affected (shiftBefore events n) (capsBefore events n) scancode := by
    have within : n < events.length := (List.getElem?_eq_some_iff.mp scanned).1
    have hasRoom := room n within (by simp [scanned])
    rw [enqueued_correct scancode (session_tracked _) hasRoom]
    exact agrees_iff _ _ _
  constructor
  · intro decodes n scancode scanned
    exact (pointwise n scancode scanned).mp (decodes n scancode scanned)
  · intro unaffected n scancode scanned
    exact (pointwise n scancode scanned).mpr (unaffected n scancode scanned)

-- a lower-case letter, then an upper-case one under SHIFT
theorem decodes_iff_shifted : Decodes [.scan 0x1E, .scan 0x2A, .scan 0x1E] :=
  (decodes_iff [.scan 0x1E, .scan 0x2A, .scan 0x1E] (by decide)).mpr (by
    intro n scancode scanned
    match n with
    | 0 | 1 | 2 => 
      obtain rfl : _ = scancode := by simpa using scanned
      decide
    | n + 3 => simp at scanned)

-- CapsLock, then a letter key
theorem capsLock_ignored :
    ¬ ∀ events, RoomAtScans events → Decodes events := by
  intro all
  have wrong := all [.scan 0x3A, .scan 0x1E] (by decide) 1 0x1E rfl
  revert wrong
  decide

end GekonOS.Decoder
