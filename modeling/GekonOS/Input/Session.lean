import GekonOS.Input.Scan
import Mathlib.Data.List.Induction

set_option autoImplicit false

namespace GekonOS

inductive KeyboardEvent where
  | scan (scancode : UInt8)
  | read
deriving DecidableEq

def KeyboardEvent.apply (k : Keyboard) : KeyboardEvent → Keyboard
  | .scan scancode => (keyboardCallback scancode k).1
  | .read => (kbdGetKey k).2

def session (events : List KeyboardEvent) : Keyboard :=
  events.foldl KeyboardEvent.apply Keyboard.initial

def scancodes (events : List KeyboardEvent) : List UInt8 :=
  events.filterMap fun
    | .scan scancode => some scancode
    | .read => none

-- whether the last press or release of a shift key was a press
def shiftAfter (codes : List UInt8) : Bool :=
  codes.foldl (fun shift scancode => nextShift scancode shift) false

def capsPresses (codes : List UInt8) : Nat := codes.count 0x3A

theorem session_append (events : List KeyboardEvent) (event : KeyboardEvent) :
    session (events ++ [event]) = event.apply (session events) := by
  simp [session]

theorem scancodes_scan (events : List KeyboardEvent) (scancode : UInt8) :
    scancodes (events ++ [.scan scancode]) = scancodes events ++ [scancode] := by
  simp [scancodes]

theorem scancodes_read (events : List KeyboardEvent) :
    scancodes (events ++ [.read]) = scancodes events := by
  simp [scancodes]

theorem shiftAfter_append (codes : List UInt8) (scancode : UInt8) :
    shiftAfter (codes ++ [scancode]) = nextShift scancode (shiftAfter codes) := by
  simp [shiftAfter]

theorem nextCaps_eq (scancode : UInt8) (caps : Bool) :
    nextCaps scancode caps = if scancode = 0x3A then !caps else caps := by
  have key : ¬ IsBreak scancode ∧ keyCode scancode = raw1CapsLock ↔ scancode = 0x3A := by
    simp only [IsBreak, keyCode, raw1CapsLock, ← UInt8.toNat_inj, UInt8.reduceToNat]
    omega
  simp only [nextCaps, key]

structure Tracked (codes : List UInt8) (k : Keyboard) : Prop where
  idle : k.sawBreakCode = 0
  shift : shiftOn k.kbdStatus = shiftAfter codes
  caps : capsOn k.kbdStatus = decide (capsPresses codes % 2 = 1)
  queue : k.kbdBuffer.Wf
  size : k.kbdBuffer.size = 64

theorem feed_correct {fifo : FifoQueue} (wf : fifo.Wf) (key : Option UInt8) :
    (feed fifo key).1.Wf ∧ (feed fifo key).1.size = fifo.size := by
  cases key with
  | none => exact ⟨wf, rfl⟩
  | some key =>
    by_cases full : fifo.count + 1 = fifo.size
    · simp only [feed, fifoInsert_rejected wf key full]
      exact ⟨wf, trivial⟩
    · obtain ⟨fifo', inserted, wf', size, -⟩ := fifoInsert_accepted wf key full
      simp only [feed, inserted]
      exact ⟨wf', size⟩

theorem Tracked.scan {codes : List UInt8} {k : Keyboard} (tracked : Tracked codes k)
    (scancode : UInt8) : Tracked (codes ++ [scancode]) (keyboardCallback scancode k).1 := by
  have scanned := keyboardCallback_correct scancode k tracked.idle
  have buffer := congrArg Prod.fst scanned.queue
  have fed := feed_correct tracked.queue (decoded (shiftOn k.kbdStatus) scancode)
  simp only at buffer
  constructor
  case idle => exact scanned.idle
  case shift => rw [scanned.shift, tracked.shift, shiftAfter_append]
  case caps =>
    rw [scanned.caps, tracked.caps, nextCaps_eq, capsPresses, capsPresses, List.count_append]
    by_cases same : scancode = 0x3A
    · simp only [same, if_true, List.count_singleton_self, ← decide_not]
      exact decide_eq_decide.mpr (by omega)
    · simp [same]
  case queue => exact buffer ▸ fed.1
  case size => rw [buffer, fed.2, tracked.size]

theorem Tracked.read {codes : List UInt8} {k : Keyboard} (tracked : Tracked codes k) :
    Tracked codes (kbdGetKey k).2 := by
  have get : (fifoGet k.kbdBuffer).2.2.Wf ∧ (fifoGet k.kbdBuffer).2.2.size = k.kbdBuffer.size := by
    by_cases empty : k.kbdBuffer.inPtr = k.kbdBuffer.outPtr
    · rw [fifoGet_empty empty]
      exact ⟨tracked.queue, rfl⟩
    · obtain ⟨key, fifo, got, wf, size, -⟩ := fifoGet_correct tracked.queue empty
      rw [got]
      exact ⟨wf, size⟩
  exact ⟨tracked.idle, tracked.shift, tracked.caps, get.1, get.2.trans tracked.size⟩

theorem session_tracked (events : List KeyboardEvent) :
    Tracked (scancodes events) (session events) := by
  induction events using List.reverseRecOn with
  | nil =>
    have queue := declareFifoQueue_correct (show 0 < 64 by decide)
    exact ⟨rfl, by decide, by decide, queue.1, rfl⟩
  | append_singleton events event ih =>
    rw [session_append]
    cases event with
    | scan scancode => exact scancodes_scan events scancode ▸ ih.scan scancode
    | read => exact scancodes_read events ▸ ih.read

end GekonOS
