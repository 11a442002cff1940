import GekonOS.Input.Session

set_option autoImplicit false

namespace GekonOS.ShiftKeys

-- whether the key with this make code is down after these codes
def held (key : Nat) (codes : List UInt8) : Bool :=
  codes.foldl (fun down scancode =>
    if keyCode scancode = key then decide (¬ IsBreak scancode) else down) false

def Releases (key : Nat) (scancode : UInt8) : Prop := IsBreak scancode ∧ keyCode scancode = key

instance (key : Nat) (scancode : UInt8) : Decidable (Releases key scancode) :=
  inferInstanceAs (Decidable (_ ∧ _))

def before (events : List KeyboardEvent) (n : Nat) : List UInt8 := scancodes (events.take n)

/-- A shift key is released only while it is down. -/
def Physical (events : List KeyboardEvent) : Prop :=
  ∀ n scancode, events[n]? = some (.scan scancode) →
    ∀ key, IsShift key → Releases key scancode → held key (before events n)

/-- No shift key is released while the other one is down. -/
def OneAtATime (events : List KeyboardEvent) : Prop :=
  ∀ n scancode, events[n]? = some (.scan scancode) →
    (Releases raw1LeftShift scancode → ¬ held raw1RightShift (before events n)) ∧
      (Releases raw1RightShift scancode → ¬ held raw1LeftShift (before events n))

def SomeHeld (codes : List UInt8) : Prop :=
  held raw1LeftShift codes ∨ held raw1RightShift codes

/-- After every callback the shift bit says whether a shift key is down. -/
def BitTracksKeys (events : List KeyboardEvent) : Prop :=
  ∀ n ≤ events.length, (session (events.take n)).kbdStatus &&& kbdMetaShift ≠ 0 ↔
    SomeHeld (before events n)

theorem shiftBit_iff (events : List KeyboardEvent) :
    (session events).kbdStatus &&& kbdMetaShift ≠ 0 ↔ shiftAfter (scancodes events) = true := by
  rw [and_kbdMetaShift, (session_tracked events).shift]

theorem held_append (key : Nat) (codes : List UInt8) (scancode : UInt8) :
    held key (codes ++ [scancode]) =
      if keyCode scancode = key then decide (¬ IsBreak scancode) else held key codes := by
  simp [held]

-- what one code does to the bit and to the two keys
theorem step_correct (codes : List UInt8) (scancode : UInt8)
    (agree : shiftAfter codes = true ↔ SomeHeld codes) :
    (shiftAfter (codes ++ [scancode]) = true ↔ SomeHeld (codes ++ [scancode])) ↔
      (Releases raw1LeftShift scancode → ¬ held raw1RightShift codes) ∧
        (Releases raw1RightShift scancode → ¬ held raw1LeftShift codes) := by
  have apart : raw1LeftShift ≠ raw1RightShift := by decide
  simp only [SomeHeld, shiftAfter_append, held_append, nextShift, IsShift, Releases] at agree ⊢
  by_cases left : keyCode scancode = raw1LeftShift
  · have notRight : ¬ keyCode scancode = raw1RightShift := left ▸ apart
    by_cases isBreak : IsBreak scancode
    · simp [left, apart, isBreak]
    · simp [left, isBreak]
  · by_cases right : keyCode scancode = raw1RightShift
    · by_cases isBreak : IsBreak scancode
      · simp [right, apart.symm, isBreak]
      · simp [right, isBreak]
    · simpa [left, right] using agree

theorem before_succ {events : List KeyboardEvent} {n : Nat} (within : n < events.length) :
    before events (n + 1) = match events[n] with
      | .scan scancode => before events n ++ [scancode]
      | .read => before events n := by
  unfold before
  rw [List.take_succ_eq_append_getElem within]
  cases events[n] with
  | scan scancode => exact scancodes_scan _ _
  | read => exact scancodes_read _

/-- The bit is right throughout exactly when no shift key comes up under the other one. -/
theorem bitTracksKeys_iff (events : List KeyboardEvent) :
    BitTracksKeys events ↔ OneAtATime events := by
  constructor
  · intro tracks n scancode scanned
    obtain ⟨within, here⟩ := List.getElem?_eq_some_iff.mp scanned
    have now := tracks n (by omega)
    have next := tracks (n + 1) within
    have grown := before_succ within
    simp only [here] at grown
    rw [shiftBit_iff] at now next
    change shiftAfter (before events (n + 1)) = true ↔ _ at next
    rw [grown] at next
    exact (step_correct _ scancode now).mp next
  · intro apart n bound
    rw [shiftBit_iff]
    change shiftAfter (before events n) = true ↔ _
    induction n with
    | zero => simp [before, scancodes, shiftAfter, SomeHeld, held]
    | succ n ih =>
      have agree := ih (by omega)
      have grown := before_succ (show n < events.length from bound)
      cases here : events[n] with
      | scan scancode =>
        simp only [here] at grown
        rw [grown]
        exact (step_correct _ scancode agree).mpr
          (apart n scancode (List.getElem?_eq_some_iff.mpr ⟨bound, here⟩))
      | read =>
        simp only [here] at grown
        rw [grown]
        exact agree

-- both keys down, then the left one up
theorem bit_lost_under_second_key : ¬ ∀ events, Physical events → BitTracksKeys events := by
  intro all
  have physical : Physical [.scan 0x2A, .scan 0x36, .scan 0xAA] := by
    intro n scancode scanned key _ released
    match n with
    | 0 | 1 =>
      obtain rfl : _ = scancode := by simpa using scanned
      exact absurd released.1 (by decide)
    | 2 =>
      obtain rfl : _ = scancode := by simpa using scanned
      obtain rfl : _ = key := released.2
      decide
    | n + 3 => simp at scanned
  have wrong := all _ physical 3 (by decide)
  revert wrong
  simp only [SomeHeld]
  decide

end GekonOS.ShiftKeys
