import GekonOS.Kernel.Paging
import GekonOS.Shared.Word32

set_option autoImplicit false

namespace GekonOS

def frameBit (frames : Nat → BitVec 32) (frame : Nat) : Bool :=
  (frames (frame / 32)).getLsbD (frame % 32)

theorem mask_ne_zero {offset : Nat} (inside : offset < 32) : BitVec.twoPow 32 offset ≠ 0#32 := by
  intro zero
  have selected := congrArg (fun word => word.getLsbD offset) zero
  simp [inside] at selected

theorem mask_eq_zero_iff (word : BitVec 32) {offset : Nat} (inside : offset < 32) :
    word &&& 1#32 <<< offset = 0#32 ↔ word.getLsbD offset = false := by
  rw [← BitVec.twoPow_eq, BitVec.and_twoPow]
  cases word.getLsbD offset with
  | true => simp [mask_ne_zero inside]
  | false => simp

theorem frameBit_setFrame (frames : Nat → BitVec 32) (frameAddr frame : Nat) :
    frameBit (setFrame frameAddr frames) frame =
      (frameBit frames frame || decide (frame = frameAddr / 4096)) := by
  simp only [frameBit, setFrame, pageSize, indexFromBit, offsetFromBit, ← BitVec.twoPow_eq]
  by_cases word : frame / 32 = frameAddr / 4096 / 32
  · have same : frame % 32 = frameAddr / 4096 % 32 ↔ frame = frameAddr / 4096 := by omega
    have inside : frame % 32 < 32 := Nat.mod_lt _ (by decide)
    simp [word, inside, same]
  · have apart : frame ≠ frameAddr / 4096 := fun same => word (by rw [same])
    simp [Function.update_of_ne word, apart]

theorem frameBit_clearFrame (frames : Nat → BitVec 32) (frameAddr frame : Nat) :
    frameBit (clearFrame frameAddr frames) frame =
      (frameBit frames frame && decide (frame ≠ frameAddr / 4096)) := by
  simp only [frameBit, clearFrame, pageSize, indexFromBit, offsetFromBit, ← BitVec.twoPow_eq]
  by_cases word : frame / 32 = frameAddr / 4096 / 32
  · have same : frame % 32 = frameAddr / 4096 % 32 ↔ frame = frameAddr / 4096 := by omega
    have inside : frame % 32 < 32 := Nat.mod_lt _ (by decide)
    simp [word, inside, same]
  · have apart : frame ≠ frameAddr / 4096 := fun same => word (by rw [same])
    simp [Function.update_of_ne word, apart]

theorem findSome?_range {α : Type} {g : Nat → Option α} {n i : Nat} {r : α} (within : i < n)
    (here : g i = some r) (before : ∀ j < i, g j = none) :
    (List.range n).findSome? g = some r := by
  induction n with
  | zero => omega
  | succ n ih =>
    rw [List.range_succ, List.findSome?_append]
    by_cases last : i = n
    · have nothing : (List.range n).findSome? g = none := by
        simp only [List.findSome?_eq_none_iff, List.mem_range]
        exact fun j lower => before j (last ▸ lower)
      rw [nothing, ← last]
      simp [here]
    · rw [ih (by omega)]
      rfl

theorem word_full (frames : Nat → BitVec 32) (index : Nat)
    (taken : ∀ offset < 32, frameBit frames (32 * index + offset) = true) :
    frames index = BitVec.ofNat 32 ulongMax := by
  apply BitVec.eq_of_getLsbD_eq
  intro offset inside
  have bit := taken offset inside
  have word : (32 * index + offset) / 32 = index := by omega
  have place : (32 * index + offset) % 32 = offset := by omega
  rw [frameBit, word, place] at bit
  rw [bit, show BitVec.ofNat 32 ulongMax = BitVec.allOnes 32 from rfl, BitVec.getLsbD_allOnes]
  exact (decide_eq_true inside).symm

theorem firstFreeFrame_correct {nframes frame : Nat} {frames : Nat → BitVec 32}
    (within : frame < 32 * (nframes / 32)) (clear : frameBit frames frame = false)
    (before : ∀ f < frame, frameBit frames f = true) : firstFreeFrame nframes frames = frame := by
  have inside : frame % 32 < 32 := Nat.mod_lt _ (by decide)
  have offset : firstFreeOffset (frames (frame / 32)) (frame / 32) = some frame := by
    refine findSome?_range inside ?_ ?_
    · rw [if_pos ((mask_eq_zero_iff _ inside).mpr clear)]
      congr 1
      omega
    · intro j lower
      have earlier := before (32 * (frame / 32) + j) (by omega)
      have word : (32 * (frame / 32) + j) / 32 = frame / 32 := by omega
      have place : (32 * (frame / 32) + j) % 32 = j := by omega
      rw [frameBit, word, place] at earlier
      rw [if_neg]
      rw [mask_eq_zero_iff _ (by omega), earlier]
      exact Bool.noConfusion
  have notFull : frames (frame / 32) ≠ BitVec.ofNat 32 ulongMax := by
    intro full
    rw [frameBit, full, show BitVec.ofNat 32 ulongMax = BitVec.allOnes 32 from rfl,
      BitVec.getLsbD_allOnes, decide_eq_true inside] at clear
    cases clear
  unfold firstFreeFrame
  rw [findSome?_range (i := frame / 32) (r := frame) (by unfold indexFromBit; omega)]
  · rfl
  · rw [if_pos notFull, offset]
  · intro index lower
    rw [if_neg]
    have full := word_full frames index (fun offset inside => before _ (by omega))
    simp [full]

theorem firstFreeFrame_least {nframes : Nat} {frames : Nat → BitVec 32}
    (some : ∃ frame < 32 * (nframes / 32), frameBit frames frame = false) :
    firstFreeFrame nframes frames < 32 * (nframes / 32) ∧
      frameBit frames (firstFreeFrame nframes frames) = false ∧
      ∀ f < firstFreeFrame nframes frames, frameBit frames f = true := by
  have least := Nat.find_spec some
  have before : ∀ f < Nat.find some, frameBit frames f = true := by
    intro f lower
    have minimal := Nat.find_min some lower
    cases bit : frameBit frames f with
    | true => rfl
    | false => exact absurd ⟨Nat.lt_trans lower least.1, bit⟩ minimal
  rw [firstFreeFrame_correct least.1 least.2 before]
  exact ⟨least.1, least.2, before⟩

def frameOf (k : Kernel) (page : Nat) : Nat := (k.pages page).frameAddr.toNat

def HasFreeFrame (k : Kernel) : Prop :=
  ∃ frame < 32 * (k.nframes / 32), frameBit k.frames frame = false

instance (k : Kernel) : Decidable (HasFreeFrame k) :=
  inferInstanceAs (Decidable (∃ frame < _, _))

theorem allocFrame_correct {k : Kernel} {page : Nat} (isKernel isWriteable : Nat)
    (none : frameOf k page = 0) (some : HasFreeFrame k) (count : k.nframes ≤ 1048576) :
    ∃ frame, frame < 1048576 ∧ frameBit k.frames frame = false ∧
      (∀ f < frame, frameBit k.frames f = true) ∧
      frame = firstFreeFrame k.nframes k.frames ∧
      allocFrame page isKernel isWriteable k = (frame, { k with
        frames := setFrame (frame * 4096) k.frames
        pages := Function.update k.pages page { k.pages page with
          present := true
          rw := decide (isWriteable ≠ 0)
          user := decide (isKernel = 0)
          frameAddr := BitVec.ofNat 20 frame } }) := by
  obtain ⟨within, clear, before⟩ := firstFreeFrame_least some
  have small : firstFreeFrame k.nframes k.frames * 4096 < 4294967296 := by omega
  have zero : (k.pages page).frameAddr = 0 := BitVec.eq_of_toNat_eq none
  refine ⟨_, by omega, clear, before, rfl, ?_⟩
  simp only [allocFrame, zero, if_true, pageSize, Word32.mul_of_lt small]

theorem allocFrame_held {k : Kernel} {page : Nat} (isKernel isWriteable : Nat)
    (held : frameOf k page ≠ 0) : allocFrame page isKernel isWriteable k = (0, k) := by
  have nonzero : (k.pages page).frameAddr ≠ 0 := fun zero => held (by rw [frameOf, zero]; rfl)
  simp only [allocFrame, if_neg nonzero]

theorem freeFrame_idle {k : Kernel} {page : Nat} (none : frameOf k page = 0) :
    freeFrame page k = k := by
  have zero : (k.pages page).frameAddr = 0 := BitVec.eq_of_toNat_eq none
  simp [freeFrame, zero]

-- a write through a pointer changes that entry and the bitmap
theorem allocFrame_entry (page isKernel isWriteable : Nat) (k : Kernel) :
    ∃ frames entry, (allocFrame page isKernel isWriteable k).2 =
      { k with frames := frames, pages := Function.update k.pages page entry } := by
  refine ⟨(allocFrame page isKernel isWriteable k).2.frames,
    (allocFrame page isKernel isWriteable k).2.pages page, ?_⟩
  by_cases none : (k.pages page).frameAddr = 0#20
  · simp [allocFrame, none]
  · simp [allocFrame, none]

theorem freeFrame_entry (page : Nat) (k : Kernel) :
    ∃ frames entry, freeFrame page k =
      { k with frames := frames, pages := Function.update k.pages page entry } := by
  refine ⟨(freeFrame page k).frames, (freeFrame page k).pages page, ?_⟩
  by_cases none : (k.pages page).frameAddr = 0#20
  · simp [freeFrame, none]
  · simp [freeFrame, none]

/--
`alloc_frame` gives a page without a frame the least free one, marks it in the bitmap and fills in
the entry; a page that has a frame is left alone.
-/
theorem allocFrame_least (k : Kernel) (page isKernel isWriteable : Nat)
    (count : k.nframes ≤ 1048576) :
    (frameOf k page = 0 → HasFreeFrame k → ∃ frame k',
      allocFrame page isKernel isWriteable k = (frame, k') ∧
      IsLeast {f | f < 32 * (k.nframes / 32) ∧ frameBit k.frames f = false} frame ∧
      (∀ f, frameBit k'.frames f = (frameBit k.frames f || decide (f = frame))) ∧
      k'.pages page = { k.pages page with
        present := true, rw := decide (isWriteable ≠ 0), user := decide (isKernel = 0),
        frameAddr := BitVec.ofNat 20 frame } ∧ frameOf k' page = frame ∧
      (∀ other ≠ page, k'.pages other = k.pages other) ∧
      k' = { k with frames := k'.frames, pages := k'.pages }) ∧
    (frameOf k page ≠ 0 → allocFrame page isKernel isWriteable k = (0, k)) := by
  refine ⟨?_, fun held => allocFrame_held isKernel isWriteable held⟩
  intro none some
  obtain ⟨frame, small, clear, before, first, result⟩ :=
    allocFrame_correct isKernel isWriteable none some count
  refine ⟨frame, _, result, ⟨⟨?_, clear⟩, ?_⟩, ?_, ?_, ?_, ?_, rfl⟩
  · rw [first]
    exact (firstFreeFrame_least some).1
  · rintro f ⟨-, free⟩
    by_contra lower
    rw [before f (Nat.lt_of_not_le lower)] at free
    cases free
  · intro f
    rw [frameBit_setFrame, Nat.mul_div_cancel frame (by decide)]
  · exact Function.update_self ..
  · simp only [frameOf, Function.update_self, BitVec.toNat_ofNat]
    exact Nat.mod_eq_of_lt small
  · exact fun other apart => Function.update_of_ne apart ..

-- 64 frames, the first 32 of them taken
def halfKernel : Kernel :=
  { Kernel.boot with
    nframes := 64
    frames := fun index => if index = 0 then BitVec.allOnes 32 else 0 }

theorem allocFrame_least_half : ∃ frame k', allocFrame 0 0 1 halfKernel = (frame, k') ∧
    IsLeast {f | f < 32 * (halfKernel.nframes / 32) ∧ frameBit halfKernel.frames f = false} frame ∧
    frameOf k' 0 = frame := by
  obtain ⟨frame, k', result, least, -, -, taken, -⟩ :=
    (allocFrame_least halfKernel 0 0 1 (by decide)).1 rfl ⟨32, by decide, by decide⟩
  exact ⟨frame, k', result, least, taken⟩

end GekonOS
