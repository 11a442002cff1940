import GekonOS.Frames.Bitmap
import Mathlib.Data.List.Induction

set_option autoImplicit false

namespace GekonOS.Ownership

inductive FrameCall where
  | allocFrame (page isKernel isWriteable : Nat)
  | freeFrame (page : Nat)
deriving DecidableEq

def FrameCall.apply (k : Kernel) : FrameCall → Kernel
  | .allocFrame page isKernel isWriteable => (GekonOS.allocFrame page isKernel isWriteable k).2
  | .freeFrame page => GekonOS.freeFrame page k

def after (start : Kernel) (calls : List FrameCall) : Kernel :=
  calls.foldl FrameCall.apply start

def liveStep (pages : List Nat) : FrameCall → List Nat
  | .allocFrame page _ _ => if page ∈ pages then pages else pages ++ [page]
  | .freeFrame page => pages.filter (· ≠ page)

-- the pages allocated and not freed since, in the order of their allocation
def live (calls : List FrameCall) : List Nat := calls.foldl liveStep []

/-- Live pages hold different frames, and the bitmap marks their frames and no others. -/
def Owned (pages : List Nat) (k : Kernel) : Prop :=
  (∀ p ∈ pages, ∀ q ∈ pages, frameOf k p = frameOf k q → p = q) ∧
    ∀ frame, frameBit k.frames frame = true ↔ ∃ p ∈ pages, frameOf k p = frame

-- all-zero entries and bits, and as many frames as `paging_init` computes from `available_mem`
structure Cleared (availableMem : Nat) (k : Kernel) : Prop where
  pages : ∀ p, k.pages p = Page.zero
  frames : ∀ index, k.frames index = 0
  count : k.nframes = Word32.mul availableMem 1024 / pageSize

def FreeAtAllocs (start : Kernel) (calls : List FrameCall) : Prop :=
  ∀ n page isKernel isWriteable, calls[n]? = some (.allocFrame page isKernel isWriteable) →
    HasFreeFrame (after start (calls.take n))

/-- Only idle pages are freed, and the page allocated first is not allocated again. -/
def Harmless (pages : List Nat) : FrameCall → Prop
  | .allocFrame page _ _ => pages.head? ≠ some page
  | .freeFrame page => page ∉ pages

theorem nframes_le (availableMem : Nat) : Word32.mul availableMem 1024 / pageSize ≤ 1048576 := by
  have small : Word32.mul availableMem 1024 < 4294967296 := Nat.mod_lt _ (by decide)
  simp only [pageSize]
  omega

/-- What harmless calls keep true: the first page holds frame 0, idle entries are zero. -/
structure Invariant (pages : List Nat) (k : Kernel) : Prop where
  owned : Owned pages k
  first : ∀ page, pages.head? = some page → frameOf k page = 0
  idle : ∀ page ∉ pages, frameOf k page = 0
  count : k.nframes ≤ 1048576

variable {pages : List Nat} {k : Kernel}

theorem Invariant.nonzero (inv : Invariant pages k) {page : Nat} (member : page ∈ pages)
    (notFirst : pages.head? ≠ some page) : frameOf k page ≠ 0 := by
  cases pages with
  | nil => cases member
  | cons first rest =>
    intro zero
    have same := inv.owned.1 page member first (by simp) (by rw [zero, inv.first first rfl])
    exact notFirst (by rw [same]; rfl)

theorem Invariant.allocFresh (inv : Invariant pages k) {page : Nat} (fresh : page ∉ pages)
    (isKernel isWriteable : Nat) (some : HasFreeFrame k) :
    Invariant (pages ++ [page]) (allocFrame page isKernel isWriteable k).2 := by
  obtain ⟨frame, small, clear, before, -, result⟩ :=
    allocFrame_correct isKernel isWriteable (inv.idle page fresh) some inv.count
  rw [result]
  obtain ⟨apart, marked⟩ := inv.owned
  generalize state : ({ k with frames := _, pages := _ } : Kernel) = k'
  have here : frameOf k' page = frame := by
    rw [← state]
    simp only [frameOf, Function.update_self, BitVec.toNat_ofNat]
    omega
  have other (p : Nat) (distinct : p ≠ page) : frameOf k' p = frameOf k p := by
    rw [← state]
    simp only [frameOf, Function.update_of_ne distinct]
  have earlier (p : Nat) (member : p ∈ pages) : frameOf k' p = frameOf k p ∧ frameOf k p ≠ frame := by
    refine ⟨other p (fun same => fresh (same ▸ member)), fun same => ?_⟩
    have set := (marked frame).mpr ⟨p, member, same⟩
    rw [clear] at set
    cases set
  constructor
  case owned =>
    constructor
    · intro p inP q inQ same
      cases List.mem_append.mp inP with
      | inl pEarlier =>
        cases List.mem_append.mp inQ with
        | inl qEarlier =>
          rw [(earlier p pEarlier).1, (earlier q qEarlier).1] at same
          exact apart p pEarlier q qEarlier same
        | inr qLast =>
          obtain rfl : q = page := by simpa using qLast
          rw [(earlier p pEarlier).1, here] at same
          exact absurd same (earlier p pEarlier).2
      | inr pLast =>
        obtain rfl : p = page := by simpa using pLast
        cases List.mem_append.mp inQ with
        | inl qEarlier =>
          rw [(earlier q qEarlier).1, here] at same
          exact absurd same.symm (earlier q qEarlier).2
        | inr qLast => exact (by simpa using qLast : q = p).symm
    · intro f
      have bit : frameBit k'.frames f = (frameBit k.frames f || decide (f = frame)) := by
        rw [← state, frameBit_setFrame, Nat.mul_div_cancel _ (by decide)]
      rw [bit, Bool.or_eq_true, decide_eq_true_iff, marked f]
      constructor
      · intro held
        cases held with
        | inl old =>
          obtain ⟨p, member, same⟩ := old
          exact ⟨p, List.mem_append_left _ member, (earlier p member).1.trans same⟩
        | inr new => exact ⟨page, by simp, here.trans new.symm⟩
      · rintro ⟨p, member, same⟩
        cases List.mem_append.mp member with
        | inl old => exact .inl ⟨p, old, (earlier p old).1.symm.trans same⟩
        | inr last =>
          obtain rfl : p = page := by simpa using last
          exact .inr (same.symm.trans here)
  case first =>
    intro p head
    cases pages with
    | nil =>
      obtain rfl : page = p := by simpa using head
      rw [here]
      by_contra positive
      obtain ⟨q, member, -⟩ := (marked 0).mp (before 0 (by omega))
      cases member
    | cons first rest =>
      obtain rfl : first = p := by simpa using head
      rw [(earlier first (by simp)).1]
      exact inv.first first rfl
  case idle =>
    intro p outside
    rw [List.mem_append, not_or] at outside
    rw [other p (by simpa using outside.2)]
    exact inv.idle p outside.1
  case count =>
    rw [← state]
    exact inv.count

theorem Invariant.step (inv : Invariant pages k) {call : FrameCall} (harmless : Harmless pages call)
    (some : ∀ page isKernel isWriteable, call = .allocFrame page isKernel isWriteable →
      HasFreeFrame k) : Invariant (liveStep pages call) (call.apply k) := by
  cases call with
  | allocFrame page isKernel isWriteable =>
    by_cases member : page ∈ pages
    · have held := allocFrame_held isKernel isWriteable (inv.nonzero member harmless)
      simpa only [liveStep, if_pos member, FrameCall.apply, held] using inv
    · simpa only [liveStep, if_neg member, FrameCall.apply] using
        inv.allocFresh member isKernel isWriteable (some _ _ _ rfl)
  | freeFrame page =>
    have unchanged : pages.filter (· ≠ page) = pages := by
      rw [List.filter_eq_self]
      intro p member
      simpa using fun same : p = page => harmless (same ▸ member)
    simpa only [liveStep, FrameCall.apply, unchanged, freeFrame_idle (inv.idle page harmless)]
      using inv

/-- The address divided once more: `free_frame` leaves the bit of the frame it gives up. -/
theorem freeFrame_keeps_bit (page : Nat) (k : Kernel)
    (marked : frameBit k.frames (frameOf k page) = true) :
    frameBit (freeFrame page k).frames (frameOf k page) = true ∧
      ∀ p ≠ page, frameOf (freeFrame page k) p = frameOf k p := by
  by_cases zero : frameOf k page = 0
  · rw [freeFrame_idle zero]
    exact ⟨marked, fun _ _ => rfl⟩
  · have nonzero : (k.pages page).frameAddr ≠ 0 := fun same => zero (by rw [frameOf, same]; rfl)
    simp only [freeFrame, if_pos nonzero]
    constructor
    · rw [frameBit_clearFrame, marked, Bool.true_and, decide_eq_true_iff]
      change frameOf k page ≠ frameOf k page / 4096
      omega
    · intro p distinct
      simp only [frameOf, Function.update_of_ne distinct]

theorem Invariant.step_harmful (inv : Invariant pages k) {call : FrameCall}
    (harmful : ¬ Harmless pages call)
    (some : ∀ page isKernel isWriteable, call = .allocFrame page isKernel isWriteable →
      HasFreeFrame k) : ¬ Owned (liveStep pages call) (call.apply k) := by
  obtain ⟨apart, marked⟩ := inv.owned
  cases call with
  | allocFrame page isKernel isWriteable =>
    have head : pages.head? = .some page := not_not.mp harmful
    have member : page ∈ pages := List.mem_of_head? head
    have zero := inv.first page head
    have taken : frameBit k.frames 0 = true := (marked 0).mpr ⟨page, member, zero⟩
    obtain ⟨frame, small, clear, -, -, result⟩ :=
      allocFrame_correct isKernel isWriteable zero (some _ _ _ rfl) inv.count
    have nonzero : frame ≠ 0 := fun same => by simp [same, taken] at clear
    intro owned
    simp only [liveStep, if_pos member, FrameCall.apply, result] at owned
    -- frame 0 stays marked, but the only page that held it holds another one now
    obtain ⟨p, inP, same⟩ := (owned.2 0).mp (by rw [frameBit_setFrame, taken]; rfl)
    by_cases first : p = page
    · simp only [frameOf, first, Function.update_self, BitVec.toNat_ofNat] at same
      omega
    · simp only [frameOf, Function.update_of_ne first] at same
      exact first (apart p inP page member (same.trans zero.symm))
  | freeFrame page =>
    have member : page ∈ pages := not_not.mp harmful
    obtain ⟨bit, others⟩ := freeFrame_keeps_bit page k ((marked _).mpr ⟨page, member, rfl⟩)
    intro owned
    obtain ⟨p, inP, same⟩ := (owned.2 _).mp bit
    obtain ⟨old, distinct⟩ : p ∈ pages ∧ p ≠ page := by simpa [liveStep] using inP
    exact distinct (apart p old page member ((others p distinct).symm.trans same))

theorem initial_invariant {availableMem : Nat} {start : Kernel}
    (cleared : Cleared availableMem start) : Invariant [] start := by
  have clear (frame : Nat) : frameBit start.frames frame = false := by
    simp [frameBit, cleared.frames]
  refine ⟨⟨by simp, by simp [clear]⟩, by simp, ?_, cleared.count ▸ nframes_le availableMem⟩
  intro page _
  simp [frameOf, cleared.pages, Page.zero]

theorem live_append (calls : List FrameCall) (call : FrameCall) :
    live (calls ++ [call]) = liveStep (live calls) call := by
  simp [live]

theorem after_append (start : Kernel) (calls : List FrameCall) (call : FrameCall) :
    after start (calls ++ [call]) = call.apply (after start calls) := by
  simp [after]

def OwnedThroughout (start : Kernel) (calls : List FrameCall) : Prop :=
  ∀ n ≤ calls.length, Owned (live (calls.take n)) (after start (calls.take n))

def AllHarmless (calls : List FrameCall) : Prop :=
  ∀ n call, calls[n]? = some call → Harmless (live (calls.take n)) call

theorem run_invariant {availableMem : Nat} {start : Kernel} (cleared : Cleared availableMem start)
    (calls : List FrameCall) (some : FreeAtAllocs start calls) (n : Nat) (bound : n ≤ calls.length)
    (harmless : ∀ i < n, ∀ call, calls[i]? = .some call → Harmless (live (calls.take i)) call) :
    Invariant (live (calls.take n)) (after start (calls.take n)) := by
  induction n with
  | zero => exact initial_invariant cleared
  | succ n ih =>
    have inv := ih (by omega) (fun i lower => harmless i (by omega))
    have here : calls[n]? = .some calls[n] := List.getElem?_eq_getElem bound
    rw [List.take_succ_eq_append_getElem bound, live_append, after_append]
    exact inv.step (harmless n (by omega) _ here)
      (fun page isKernel isWriteable same => some n page isKernel isWriteable (same ▸ here))

/-- Frame ownership holds throughout a sequence of calls exactly when all of them are harmless. -/
theorem owned_iff_harmless (availableMem : Nat) (start : Kernel)
    (cleared : Cleared availableMem start) (calls : List FrameCall)
    (some : FreeAtAllocs start calls) : OwnedThroughout start calls ↔ AllHarmless calls := by
  constructor
  · intro owned n
    -- the first harmful call breaks ownership
    induction n using Nat.strong_induction_on with
    | h n ih =>
      intro call here
      have within : n < calls.length := (List.getElem?_eq_some_iff.mp here).1
      have inv := run_invariant cleared calls some n (by omega) ih
      by_contra harmful
      apply inv.step_harmful harmful
      · exact fun page isKernel isWriteable same => some n page isKernel isWriteable (same ▸ here)
      · have next := owned (n + 1) within
        have last : calls[n] = call := (List.getElem?_eq_some_iff.mp here).2
        rwa [List.take_succ_eq_append_getElem within, live_append, after_append, last] at next
  · intro harmless n bound
    exact (run_invariant cleared calls some n bound fun i _ => harmless i).owned

-- the frames of 128 KB
def smallMachine : Kernel := { Kernel.boot with nframes := 32 }

theorem smallMachine_cleared : Cleared 128 smallMachine :=
  ⟨fun _ => rfl, fun _ => rfl, by decide⟩

theorem owned_iff_harmless_twoPages :
    OwnedThroughout smallMachine [.allocFrame 0x300000 0 0, .allocFrame 0x300004 0 0] := by
  refine (owned_iff_harmless 128 smallMachine smallMachine_cleared _ ?_).mpr ?_
  · intro n page isKernel isWriteable here
    match n with
    | 0 | 1 => decide
    | n + 2 => simp at here
  · intro n call here
    match n with
    | 0 | 1 =>
      obtain rfl : _ = call := by simpa using here
      simp [Harmless, live, liveStep]
    | n + 2 => simp at here

-- freeing the page of frame 1 clears the bit of frame 0, which is then given out a second time
theorem frame_shared_after_free : ¬ ∀ availableMem start calls, Cleared availableMem start →
    FreeAtAllocs start calls → OwnedThroughout start calls := by
  intro all
  have owned := all 128 smallMachine
    [.allocFrame 0x300000 0 0, .allocFrame 0x300004 0 0, .freeFrame 0x300004, .allocFrame 0x300008 0 0] smallMachine_cleared (by
      intro n page isKernel isWriteable here
      match n with
      | 0 | 1 | 3 => decide
      | 2 => simp at here
      | n + 4 => simp at here) 4 (by decide)
  have same := owned.1 0x300000 (by decide) 0x300008 (by decide) (by decide)
  cases same

end GekonOS.Ownership
