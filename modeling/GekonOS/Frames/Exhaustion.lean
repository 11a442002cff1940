import GekonOS.Frames.Bitmap

set_option autoImplicit false

namespace GekonOS.Exhaustion

-- the word of the bitmap that `set_frame` and `clear_frame` read and store
def frameWord (frameAddr : Nat) : Nat := indexFromBit (frameAddr / pageSize)

/-- The words of the bitmap that a call of `alloc_frame` stores to. -/
def allocFrameStores (page : Nat) (k : Kernel) : List Nat :=
  if (k.pages page).frameAddr = 0 then
    [frameWord (Word32.mul (firstFreeFrame k.nframes k.frames) pageSize)]
  else []

def AllTaken (k : Kernel) : Prop :=
  ∀ frame < 32 * (k.nframes / 32), frameBit k.frames frame = true

/-- What the error branch of `alloc_frame` is for: nothing is stored. -/
structure LeavesAlone (page isKernel isWriteable : Nat) (k : Kernel) : Prop where
  inside : ∀ word ∈ allocFrameStores page k, word < indexFromBit k.nframes
  frames : (allocFrame page isKernel isWriteable k).2.frames = k.frames
  entry : (allocFrame page isKernel isWriteable k).2.pages page = k.pages page

theorem setFrame_other (frames : Nat → BitVec 32) {frameAddr word : Nat}
    (other : word ≠ frameWord frameAddr) : setFrame frameAddr frames word = frames word :=
  Function.update_of_ne other ..

theorem clearFrame_other (frames : Nat → BitVec 32) {frameAddr word : Nat}
    (other : word ≠ frameWord frameAddr) : clearFrame frameAddr frames word = frames word :=
  Function.update_of_ne other ..

variable {k : Kernel}

theorem firstFreeFrame_full (taken : AllTaken k) : firstFreeFrame k.nframes k.frames = ulongMax := by
  have nothing : (List.range (indexFromBit k.nframes)).findSome? (fun index =>
      if k.frames index ≠ BitVec.ofNat 32 ulongMax then firstFreeOffset (k.frames index) index
      else none) = none := by
    simp only [List.findSome?_eq_none_iff, List.mem_range]
    intro index inside
    have full := word_full k.frames index (fun offset small => taken _ (by
      unfold indexFromBit at inside
      omega))
    rw [if_neg (fun other => other full)]
  rw [firstFreeFrame, nothing]
  rfl

theorem allocFrame_full {page : Nat} (isKernel isWriteable : Nat) (none : frameOf k page = 0)
    (taken : AllTaken k) :
    allocFrame page isKernel isWriteable k = (ulongMax, { k with
      frames := Function.update k.frames 32767 (k.frames 32767 ||| 1#32 <<< 31)
      pages := Function.update k.pages page { k.pages page with
        present := true
        rw := decide (isWriteable ≠ 0)
        user := decide (isKernel = 0)
        frameAddr := 0xFFFFF } }) ∧
      allocFrameStores page k = [32767] := by
  have zero : (k.pages page).frameAddr = 0 := BitVec.eq_of_toNat_eq none
  have sentinel := firstFreeFrame_full taken
  constructor
  · simp only [allocFrame, zero, if_true, sentinel]
    rfl
  · rw [allocFrameStores, if_pos zero, sentinel]
    rfl

/--
When every frame that the scan reaches is taken, `alloc_frame` gives the page the frame `0xFFFFF`
and marks it present, whatever the bitmap; the word it stores to belongs to the bitmap only with
four gigabytes of frames.
-/
theorem exhaustion_ignored (k : Kernel) (page isKernel isWriteable : Nat)
    (none : frameOf k page = 0) (taken : AllTaken k) :
    ¬ LeavesAlone page isKernel isWriteable k ∧
      ((allocFrame page isKernel isWriteable k).2.pages page).present = true ∧
      frameOf (allocFrame page isKernel isWriteable k).2 page = 0xFFFFF ∧
      ((∀ word ∈ allocFrameStores page k, word < indexFromBit k.nframes) ↔
        1048576 ≤ k.nframes) := by
  obtain ⟨result, stores⟩ := allocFrame_full isKernel isWriteable none taken
  have frame : frameOf (allocFrame page isKernel isWriteable k).2 page = 0xFFFFF := by
    rw [result]
    simp only [frameOf, Function.update_self]
    rfl
  refine ⟨?_, ?_, frame, ?_⟩
  · intro alone
    have same : frameOf (allocFrame page isKernel isWriteable k).2 page = frameOf k page := by
      rw [frameOf, alone.entry, frameOf]
    rw [frame, none] at same
    cases same
  · rw [result]
    simp only [Function.update_self]
  · rw [stores]
    simp only [List.mem_singleton, forall_eq, indexFromBit]
    omega

-- four megabytes, all of them taken
def fullKernel : Kernel :=
  { Kernel.boot with
    nframes := 1024
    frames := fun index => if index < 32 then BitVec.allOnes 32 else 0 }

theorem fullKernel_taken : AllTaken fullKernel := by
  intro frame inside
  have word : frame / 32 < 32 := by
    change frame < 32 * (1024 / 32) at inside
    omega
  change (if frame / 32 < 32 then BitVec.allOnes 32 else 0).getLsbD (frame % 32) = true
  rw [if_pos word, BitVec.getLsbD_allOnes]
  exact decide_eq_true (Nat.mod_lt _ (by decide))

theorem exhaustion_ignored_full : frameOf fullKernel 0 = 0 ∧ AllTaken fullKernel ∧
    frameOf (allocFrame 0 0 0 fullKernel).2 0 = 0xFFFFF :=
  ⟨rfl, fullKernel_taken, (exhaustion_ignored fullKernel 0 0 0 rfl fullKernel_taken).2.2.1⟩

/-- A page of the full machine is marked present. -/
theorem full_page_present : frameOf fullKernel 0 = 0 ∧ AllTaken fullKernel ∧
    ¬ LeavesAlone 0 0 0 fullKernel := by
  refine ⟨rfl, fullKernel_taken, fun alone => ?_⟩
  have entry := alone.entry
  rw [(allocFrame_full 0 0 rfl fullKernel_taken).1] at entry
  simp only [Function.update_self, fullKernel, Kernel.boot, Page.zero, Page.mk.injEq] at entry
  exact Bool.noConfusion entry.1

end GekonOS.Exhaustion
