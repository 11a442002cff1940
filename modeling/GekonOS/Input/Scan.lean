import GekonOS.Kernel.Keyboard
import Mathlib.Data.List.GetD

set_option autoImplicit false

namespace GekonOS

def shiftOn (status : BitVec 16) : Bool := status.getLsbD 11
def capsOn (status : BitVec 16) : Bool := status.getLsbD 12

theorem and_kbdMetaShift (status : BitVec 16) :
    status &&& kbdMetaShift ≠ 0 ↔ shiftOn status = true := by
  have mask : kbdMetaShift = BitVec.twoPow 16 11 := by decide
  rw [mask, BitVec.and_twoPow, shiftOn]
  cases status.getLsbD 11 <;> decide

def IsShift (code : Nat) : Prop := code = raw1LeftShift ∨ code = raw1RightShift

def IsModifier (code : Nat) : Prop :=
  code = raw1LeftAlt ∨ code = raw1RightAlt ∨ code = raw1LeftCtrl ∨ code = raw1RightCtrl ∨
    IsShift code

def IsLock (code : Nat) : Prop :=
  code = raw1ScrollLock ∨ code = raw1NumLock ∨ code = raw1CapsLock

instance (code : Nat) : Decidable (IsShift code) := inferInstanceAs (Decidable (_ ∨ _))
instance (code : Nat) : Decidable (IsModifier code) := inferInstanceAs (Decidable (_ ∨ _))
instance (code : Nat) : Decidable (IsLock code) := inferInstanceAs (Decidable (_ ∨ _))

-- the key that a make or break code belongs to
def keyCode (scancode : UInt8) : Nat := scancode.toNat % 128

def IsBreak (scancode : UInt8) : Prop := 128 ≤ scancode.toNat

instance (scancode : UInt8) : Decidable (IsBreak scancode) := inferInstanceAs (Decidable (_ ≤ _))

def nextShift (scancode : UInt8) (shift : Bool) : Bool :=
  if IsShift (keyCode scancode) then decide (¬ IsBreak scancode) else shift

def nextCaps (scancode : UInt8) (caps : Bool) : Bool :=
  if ¬ IsBreak scancode ∧ keyCode scancode = raw1CapsLock then !caps else caps

def keyIn (shift : Bool) (code : Nat) : UInt8 := (if shift then shiftMap else normalMap).getD code 0

/-- The key handed to `fifo_insert`, if there is one. CapsLock plays no part. -/
def decoded (shift : Bool) (scancode : UInt8) : Option UInt8 :=
  let code := scancode.toNat
  if IsBreak scancode ∨ IsModifier code ∨ IsLock code ∨ keyIn shift code = 0 ∨ code > 0x58 ∨
      (keyIn shift code ≥ F1 ∧ keyIn shift code ≤ F11) then none
  else some (keyIn shift code)

-- the calls of `fifo_insert` among the effects
def inserts (effects : List KeyboardEffect) : List (UInt8 × Int) :=
  effects.filterMap fun
    | .fifoInsert key result => some (key, result)
    | _ => none

def feed (fifo : FifoQueue) : Option UInt8 → FifoQueue × List (UInt8 × Int)
  | none => (fifo, [])
  | some key => ((fifoInsert fifo key).2, [(key, (fifoInsert fifo key).1)])

theorem lookup_correct (map : List UInt8) (code : Nat) (temp : UInt8) :
    (if code ≥ map.length then none
      else if map.getD code 0 = 0 then none else some (temp, map.getD code 0)).map Prod.snd =
      if map.getD code 0 = 0 then none else some (map.getD code 0) := by
  by_cases outside : code ≥ map.length
  · rw [if_pos outside, List.getD_eq_default map 0 outside]
    rfl
  · rw [if_neg outside]
    split <;> rfl

theorem translate_correct (status : BitVec 16) (code : Nat) :
    (translate status code).map Prod.snd =
      if keyIn (shiftOn status) code = 0 then none else some (keyIn (shiftOn status) code) := by
  unfold translate keyIn
  cases shift : shiftOn status with
  | true =>
    rw [if_pos ((and_kbdMetaShift status).mpr shift)]
    exact lookup_correct shiftMap code _
  | false =>
    rw [if_neg (fun set => by simp [(and_kbdMetaShift status).mp set] at shift)]
    exact lookup_correct normalMap code _

theorem enqueue_correct (code : Nat) (temp converted : UInt8) (k : Keyboard) :
    (enqueue code temp converted k).1.kbdStatus = k.kbdStatus ∧
      (enqueue code temp converted k).1.sawBreakCode = k.sawBreakCode ∧
      ((enqueue code temp converted k).1.kbdBuffer, inserts (enqueue code temp converted k).2) =
        feed k.kbdBuffer (if code > 0x58 ∨ (converted ≥ F1 ∧ converted ≤ F11) then none
          else some converted) := by
  have printed (condition : Prop) [Decidable condition] (text : String) :
      inserts (if condition then [.kprintf text] else []) = [] := by
    split <;> rfl
  unfold enqueue
  by_cases outside : code > 0x58
  · simp only [printed, outside, true_or, if_true, feed, and_self]
  · by_cases function : converted ≥ F1 ∧ converted ≤ F11
    · simp only [if_neg outside, printed, function, and_self, or_true, if_true, feed]
    · simp only [outside, function, or_self, if_false, feed, true_and]
      simp only [inserts, List.filterMap_append, Prod.mk.injEq, true_and]
      exact congrArg (· ++ _) (printed _ _)

section Bits

variable (status mask : BitVec 16)

@[simp] theorem shiftOn_clear :
    shiftOn (status &&& ~~~mask) = (shiftOn status && !shiftOn mask) := by simp [shiftOn]

@[simp] theorem shiftOn_set : shiftOn (status ||| mask) = (shiftOn status || shiftOn mask) := by
  simp [shiftOn]

@[simp] theorem shiftOn_toggle :
    shiftOn (status ^^^ mask) = (shiftOn status ^^ shiftOn mask) := by simp [shiftOn]

@[simp] theorem capsOn_clear :
    capsOn (status &&& ~~~mask) = (capsOn status && !capsOn mask) := by simp [capsOn]

@[simp] theorem capsOn_set : capsOn (status ||| mask) = (capsOn status || capsOn mask) := by
  simp [capsOn]

@[simp] theorem capsOn_toggle : capsOn (status ^^^ mask) = (capsOn status ^^ capsOn mask) := by
  simp [capsOn]

end Bits

@[simp] theorem shiftOn_masks : shiftOn kbdMetaAlt = false ∧ shiftOn kbdMetaCtrl = false ∧
    shiftOn kbdMetaShift = true ∧ shiftOn kbdMetaCaps = false ∧ shiftOn kbdMetaNum = false ∧
    shiftOn kbdMetaScrl = false := by decide

@[simp] theorem capsOn_masks : capsOn kbdMetaAlt = false ∧ capsOn kbdMetaCtrl = false ∧
    capsOn kbdMetaShift = false ∧ capsOn kbdMetaCaps = true ∧ capsOn kbdMetaNum = false ∧
    capsOn kbdMetaScrl = false := by decide

/-- The state after an interrupt, and the calls of `fifo_insert` during it. -/
structure Scanned (scancode : UInt8) (k k' : Keyboard) (effects : List KeyboardEffect) : Prop where
  idle : k'.sawBreakCode = 0
  shift : shiftOn k'.kbdStatus = nextShift scancode (shiftOn k.kbdStatus)
  caps : capsOn k'.kbdStatus = nextCaps scancode (capsOn k.kbdStatus)
  queue : (k'.kbdBuffer, inserts effects) = feed k.kbdBuffer (decoded (shiftOn k.kbdStatus) scancode)

theorem keyboardCallback_break {scancode : UInt8} (k : Keyboard) (isBreak : IsBreak scancode) :
    Scanned scancode k (keyboardCallback scancode k).1 (keyboardCallback scancode k).2 := by
  have high : scancode.toNat ≥ 0x80 := isBreak
  have seen : (1 : BitVec 16) ≠ 0 := by decide
  have code : scancode.toNat &&& 0x7F = keyCode scancode := Nat.and_two_pow_sub_one_eq_mod _ 7
  have quiet : decoded (shiftOn k.kbdStatus) scancode = none := by simp [decoded, isBreak]
  have released (caps : Bool) : nextCaps scancode caps = caps := by simp [nextCaps, isBreak]
  simp only [keyboardCallback, if_pos high, code, if_pos seen]
  constructor
  case idle => rfl
  case shift =>
    simp only [nextShift, isBreak, not_true, decide_false]
    by_cases shift : IsShift (keyCode scancode)
    · have notAlt : ¬ (keyCode scancode = raw1LeftAlt ∨ keyCode scancode = raw1RightAlt) := by
        simp only [IsShift, raw1LeftShift, raw1RightShift] at shift
        simp only [raw1LeftAlt, raw1RightAlt]
        omega
      have notCtrl : ¬ (keyCode scancode = raw1LeftCtrl ∨ keyCode scancode = raw1RightCtrl) := by
        simp only [IsShift, raw1LeftShift, raw1RightShift] at shift
        simp only [raw1LeftCtrl, raw1RightCtrl]
        omega
      rw [if_pos shift, if_neg notAlt, if_neg notCtrl, if_pos (show _ ∨ _ from shift)]
      simp
    · rw [if_neg shift]
      split
      next => simp
      next =>
        split
        next => simp
        next => rw [if_neg (show ¬ (_ ∨ _) from shift)]
  case caps =>
    rw [released]
    split
    next => simp
    next =>
      split
      next => simp
      next => split <;> simp
  case queue =>
    rw [quiet]
    rfl

-- a modifier or lock key touches the status only
theorem Scanned.quiet {scancode : UInt8} {k : Keyboard} {status : BitVec 16}
    {effects : List KeyboardEffect} (loud : IsModifier scancode.toNat ∨ IsLock scancode.toNat)
    (silent : inserts effects = [])
    (shift : shiftOn status = nextShift scancode (shiftOn k.kbdStatus))
    (caps : capsOn status = nextCaps scancode (capsOn k.kbdStatus)) :
    Scanned scancode k { k with kbdStatus := status, sawBreakCode := 0 } effects := by
  have nothing : decoded (shiftOn k.kbdStatus) scancode = none := by
    cases loud with
    | inl modifier => simp [decoded, modifier]
    | inr lock => simp [decoded, lock]
  exact ⟨rfl, shift, caps, by rw [nothing, silent]; rfl⟩

theorem decoded_plain {scancode : UInt8} (shift : Bool) (isMake : ¬ IsBreak scancode)
    (notModifier : ¬ IsModifier scancode.toNat) (notLock : ¬ IsLock scancode.toNat) :
    decoded shift scancode = if keyIn shift scancode.toNat = 0 ∨ scancode.toNat > 0x58 ∨
      (keyIn shift scancode.toNat ≥ F1 ∧ keyIn shift scancode.toNat ≤ F11) then none
      else some (keyIn shift scancode.toNat) := by
  simp only [decoded, isMake, notModifier, notLock, false_or]

theorem keyboardCallback_make {scancode : UInt8} (k : Keyboard) (isMake : ¬ IsBreak scancode)
    (idle : k.sawBreakCode = 0) :
    Scanned scancode k (keyboardCallback scancode k).1 (keyboardCallback scancode k).2 := by
  have low : ¬ scancode.toNat ≥ 0x80 := isMake
  have code : keyCode scancode = scancode.toNat := Nat.mod_eq_of_lt (Nat.lt_of_not_le low)
  have shiftKeys : IsShift (keyCode scancode) ↔ scancode.toNat = 42 ∨ scancode.toNat = 54 := by
    rw [code]
    rfl
  have capsKey : ¬ IsBreak scancode ∧ keyCode scancode = raw1CapsLock ↔ scancode.toNat = 58 := by
    rw [code]
    exact and_iff_right isMake
  simp only [keyboardCallback, if_neg low, idle, ne_eq, not_true, if_false]
  by_cases alt : scancode.toNat = raw1LeftAlt ∨ scancode.toNat = raw1RightAlt
  · have here : scancode.toNat = 56 := or_self_iff.mp alt
    rw [if_pos alt]
    refine Scanned.quiet ?_ rfl ?_ ?_
    · rw [here]
      decide
    · simp [nextShift, shiftKeys, here]
    · simp [nextCaps, capsKey, here]
  rw [if_neg alt]
  by_cases ctrl : scancode.toNat = raw1LeftCtrl ∨ scancode.toNat = raw1RightCtrl
  · have here : scancode.toNat = 29 := or_self_iff.mp ctrl
    rw [if_pos ctrl]
    refine Scanned.quiet ?_ rfl ?_ ?_
    · rw [here]
      decide
    · simp [nextShift, shiftKeys, here]
    · simp [nextCaps, capsKey, here]
  rw [if_neg ctrl]
  by_cases shift : scancode.toNat = raw1LeftShift ∨ scancode.toNat = raw1RightShift
  · have here : scancode.toNat = 42 ∨ scancode.toNat = 54 := shift
    rw [if_pos shift]
    refine Scanned.quiet (Or.inl ?_) rfl ?_ ?_
    · simp [IsModifier, IsShift, shift]
    · simp [nextShift, shiftKeys, here, isMake]
    · have other : ¬ scancode.toNat = 58 := by omega
      simp [nextCaps, capsKey, other]
  rw [if_neg shift]
  have noShift (s : Bool) : nextShift scancode s = s := if_neg (fun is => shift (shiftKeys.mp is))
  by_cases scroll : scancode.toNat = raw1ScrollLock
  · have other : ¬ scancode.toNat = 58 := by rw [scroll]; decide
    rw [if_pos scroll]
    refine Scanned.quiet (Or.inr (Or.inl scroll)) rfl ?_ ?_
    · simp [noShift]
    · simp [nextCaps, capsKey, other]
  rw [if_neg scroll]
  by_cases num : scancode.toNat = raw1NumLock
  · have other : ¬ scancode.toNat = 58 := by rw [num]; decide
    rw [if_pos num]
    refine Scanned.quiet (Or.inr (Or.inr (Or.inl num))) rfl ?_ ?_
    · simp [noShift]
    · simp [nextCaps, capsKey, other]
  rw [if_neg num]
  by_cases caps : scancode.toNat = raw1CapsLock
  · have here : scancode.toNat = 58 := caps
    rw [if_pos caps]
    refine Scanned.quiet (Or.inr (Or.inr (Or.inr caps))) rfl ?_ ?_
    · simp [noShift]
    · simp [nextCaps, capsKey, here]
  rw [if_neg caps]
  have other : ¬ scancode.toNat = 58 := caps
  have noCaps (c : Bool) : nextCaps scancode c = c := by simp [nextCaps, capsKey, other]
  have plain : ¬ IsModifier scancode.toNat ∧ ¬ IsLock scancode.toNat := by
    simp only [IsModifier, IsLock, IsShift] at *
    tauto
  have found := translate_correct k.kbdStatus scancode.toNat
  have key := decoded_plain (shiftOn k.kbdStatus) isMake plain.1 plain.2
  cases translated : translate k.kbdStatus scancode.toNat with
  | none =>
    rw [translated] at found
    have zero : keyIn (shiftOn k.kbdStatus) scancode.toNat = 0 := by
      by_contra nonzero
      simp [nonzero] at found
    rw [if_pos (Or.inl zero)] at key
    exact ⟨rfl, (noShift _).symm, (noCaps _).symm, by rw [key]; rfl⟩
  | some pair =>
    obtain ⟨temp, converted⟩ := pair
    rw [translated] at found
    have nonzero : keyIn (shiftOn k.kbdStatus) scancode.toNat ≠ 0 := by
      intro zero
      simp [zero] at found
    simp only [Option.map_some, if_neg nonzero, Option.some.injEq] at found
    rw [← found] at key nonzero
    simp only [nonzero, false_or] at key
    obtain ⟨status, stillIdle, queue⟩ := enqueue_correct scancode.toNat temp converted
      { kbdStatus := k.kbdStatus, sawBreakCode := 0, kbdBuffer := k.kbdBuffer }
    refine ⟨stillIdle, ?_, ?_, ?_⟩
    · rw [noShift, status]
    · rw [noCaps, status]
    · rw [key]
      exact queue

theorem keyboardCallback_correct (scancode : UInt8) (k : Keyboard) (idle : k.sawBreakCode = 0) :
    Scanned scancode k (keyboardCallback scancode k).1 (keyboardCallback scancode k).2 := by
  by_cases isBreak : IsBreak scancode
  · exact keyboardCallback_break k isBreak
  · exact keyboardCallback_make k isBreak idle

end GekonOS
