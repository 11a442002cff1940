import GekonOS.Heap.Quiet
import GekonOS.Shared.Yields

set_option autoImplicit false

namespace GekonOS

open ByteMemory Loop Transition

/--
`P` stays true while the heap moves its end and its index, and while the pages in `area`, where the
heap lies, lose their frames.
-/
structure SurvivesFree (area : Set Nat) (P : Kernel → Prop) : Prop where
  mapped : ∀ k, P k → Mapped k k.heap.maxAddress
  inside : ∀ k a, P k → k.heap.startAddress ≤ a → a < k.heap.maxAddress → a / 4096 ∈ area
  elsewhere : ∀ k mem index stop, P k →
    P { k with mem := mem, heap := { k.heap with index := index, endAddress := stop } }
  freeFrame : ∀ k page, page ∈ area → k.HasTable page → P k → P (freeFrame (k.entryOf page) k)

/-- It stays true as well while they get frames. -/
structure Survives (area : Set Nat) (P : Kernel → Prop) : Prop extends SurvivesFree area P where
  allocFrame : ∀ k page isKernel isWriteable, page ∈ area → k.HasTable page → P k →
    P (allocFrame (k.entryOf page) isKernel isWriteable k).2

variable {area : Set Nat} {P : Kernel → Prop} {kmallocInt : Kmalloc} {k : Kernel}
  {cs : List Chunk} {newSize i : Nat}

-- the right merge takes an entry out of the index
theorem unifyRight_index (header footer : Nat) (k : Kernel) :
    Yields (fun r => ∃ index m, r.2 = k.withIndex index m)
      (unifyRight header footer k) := by
  unfold unifyRight
  refine Yields.ite (fun _ => ?_) (fun _ => Yields.ok ⟨k.heap.index, k.mem, rfl⟩)
  exact (Yields.any _).bind fun _ _ => (Yields.any _).bind fun _ _ =>
    (Yields.any _).bind fun r _ => Yields.ok ⟨r.1, r.2, rfl⟩

-- a `free` that returns has passed both tests
theorem free_magic {p header footer : Nat} {k' : Kernel} (nonzero : p ≠ 0)
    (header_eq : Word32.sub p sizeofHeader = header)
    (footer_eq : Word32.sub (Word32.add header (headerSize k.mem header)) sizeofFooter = footer)
    (result : free kmallocInt p k = .ok k') :
    headerMagic k.mem header = heapMagic ∧ footerMagic k.mem footer = heapMagic := by
  unfold free at result
  rw [if_neg nonzero, header_eq] at result
  simp -iota only [footer_eq] at result
  by_cases headerOk : headerMagic k.mem header = heapMagic
  · rw [ASSERT_ok headerOk, ok_bind] at result
    by_cases footerOk : footerMagic k.mem footer = heapMagic
    · exact ⟨headerOk, footerOk⟩
    · rw [ASSERT, if_neg footerOk, error_bind] at result
      cases result
  · rw [ASSERT, if_neg headerOk, error_bind] at result
    cases result

namespace SurvivesFree

theorem page (survives : SurvivesFree area P) (kmallocInt : Kmalloc) (offset : Nat) (holds : P k)
    (small : k.heap.maxAddress < 4294967296)
    (below : k.heap.startAddress + offset < k.heap.maxAddress) :
    ∃ page ∈ area, k.HasTable page ∧
      getPage kmallocInt (Word32.add k.heap.startAddress offset) k = .ok (k.entryOf page, k) := by
  have has := survives.mapped k holds _ (Nat.le_add_right ..) below
  rw [Word32.add_of_lt (by omega)]
  exact ⟨_, survives.inside k _ holds (Nat.le_add_right ..) below, has,
    getPage_present kmallocInt has⟩

theorem contractPages (survives : SurvivesFree area P) (holds : P k)
    (small : k.heap.maxAddress < 4294967296) (least : 4096 ≤ newSize)
    (within : k.heap.startAddress + i < k.heap.maxAddress) :
    Yields (fun r => P r.2) (GekonOS.contractPages kmallocInt newSize i k) := by
  intro r result
  rw [contractPages_eq] at result
  have rounds : Yields (fun s : Nat × Kernel => P s.2 ∧ PagesOnly k s.2 ∧ s.1 ≤ i)
      (.ok r : Except Halt _) := by
    rw [← result]
    refine Yields.loop ⟨holds, PagesOnly.refl k, Nat.le_refl i⟩ ?_
    rintro ⟨j, k1⟩ ⟨holds, only, upper⟩ test
    have more : newSize < j := of_decide_eq_true (Except.ok.inj test)
    simp only at upper
    obtain ⟨page, inArea, has, found⟩ := survives.page kmallocInt j holds
      (by rw [only.heap]; exact small) (by rw [only.heap]; omega)
    unfold contractPage
    simp only [found, ok_bind]
    refine Yields.ok ⟨survives.freeFrame _ _ inArea has holds, only.freeFrame _, ?_⟩
    rw [pageSize, Word32.sub_of_le (by omega) (by omega)]
    omega
  exact (rounds r rfl).1

theorem contract (survives : SurvivesFree area P) (holds : P k)
    (small : k.heap.maxAddress < 4294967296) (bound : k.heap.endAddress ≤ k.heap.maxAddress)
    (least : heapMinSize ≤ k.heap.endAddress - k.heap.startAddress) :
    Yields (fun r => P r.2) (GekonOS.contract kmallocInt newSize k) := by
  have minimum : heapMinSize = 458752 := rfl
  have atLeast := le_contractedLength newSize
  have length : Word32.sub k.heap.endAddress k.heap.startAddress =
      k.heap.endAddress - k.heap.startAddress := Word32.sub_of_le (by omega) (by omega)
  have last : Word32.sub (Word32.sub k.heap.endAddress k.heap.startAddress) pageSize =
      k.heap.endAddress - k.heap.startAddress - 4096 := by
    rw [length, pageSize, Word32.sub_of_le (by omega) (by omega)]
  unfold GekonOS.contract
  simp only [contractedLength_eq, last]
  refine (Yields.any _).bind fun _ _ => ?_
  refine (survives.contractPages holds small (by omega) (by omega)).bind fun done holds => ?_
  exact Yields.ok (survives.elsewhere _ done.2.mem done.2.heap.index _ holds)

theorem contractEnd (survives : SurvivesFree area P) (holds : P k)
    (small : k.heap.maxAddress < 4294967296) (bound : k.heap.endAddress ≤ k.heap.maxAddress)
    (least : heapMinSize ≤ k.heap.endAddress - k.heap.startAddress)
    (header footer testHeader : Nat) :
    Yields P (GekonOS.contractEnd kmallocInt header footer testHeader k) := by
  unfold GekonOS.contractEnd
  refine Yields.ite (fun _ => ?_) (fun _ => Yields.ok holds)
  refine (survives.contract holds small bound least).bind fun shrunk holds => ?_
  refine Yields.ite (fun _ => ?_) (fun _ => ?_)
  · exact Yields.ok (survives.elsewhere _ _ shrunk.2.heap.index shrunk.2.heap.endAddress holds)
  · refine (Yields.any _).bind fun iterator _ => ?_
    refine Yields.ite (fun _ => ?_) (fun _ => Yields.ok holds)
    exact (Yields.any _).bind fun r _ =>
      Yields.ok (survives.elsewhere _ r.2 r.1 shrunk.2.heap.endAddress holds)

theorem free (survives : SurvivesFree area P) (sound : Sound k cs) (holds : P k) (p : Nat) :
    Yields P (GekonOS.free kmallocInt p k) := by
  intro k' result
  by_cases zero : p = 0
  · unfold GekonOS.free at result
    rw [if_pos zero] at result
    cases result
    exact holds
  · have limit := sound.limit
    obtain ⟨header, header_eq⟩ : ∃ header, Word32.sub p sizeofHeader = header := ⟨_, rfl⟩
    obtain ⟨footer, footer_eq⟩ : ∃ footer,
      Word32.sub (Word32.add header (headerSize k.mem header)) sizeofFooter = footer := ⟨_, rfl⟩
    obtain ⟨headerOk, footerOk⟩ := free_magic zero header_eq footer_eq result
    obtain ⟨⟨header', doAdd, m⟩, left⟩ :
      ∃ merged, unifyLeft header footer (setHeaderIsHole k.mem header 1) = merged := ⟨_, rfl⟩
    obtain ⟨footer', k2, k3, right, contracted, -⟩ :=
      free_returns zero header_eq footer_eq headerOk footerOk left result
    obtain ⟨index, m', same⟩ := unifyRight_index header' footer { k with mem := m } _ right
    change k2 = _ at same
    have holds2 : P k2 := by
      rw [same]
      exact survives.elsewhere k m' index k.heap.endAddress holds
    have heap : k2.heap = { k.heap with index := index } := by
      rw [same]
      rfl
    have holds3 : P k3 := survives.contractEnd holds2
      (by rw [heap]; exact Nat.lt_trans limit (by decide)) (by rw [heap]; exact sound.bound)
      (by rw [heap]; exact sound.least) header' footer' _ k3 contracted
    rw [free_steps zero header_eq footer_eq headerOk footerOk left right contracted] at result
    have last : Yields P (if doAdd = 1 then
        insertOrderedArray header' k3.heap.index k3.mem >>= fun r => .ok (k3.withIndex r.1 r.2)
        else .ok k3) :=
      Yields.ite (fun _ => (Yields.any _).bind fun r _ =>
        Yields.ok (survives.elsewhere k3 r.2 r.1 k3.heap.endAddress holds3))
        (fun _ => Yields.ok holds3)
    exact last k' result

end SurvivesFree

namespace Survives

theorem expandPages (survives : Survives area P) (holds : P k)
    (small : k.heap.maxAddress < 4294967296)
    (within : k.heap.startAddress + newSize ≤ k.heap.maxAddress) :
    Yields (fun r => P r.2) (GekonOS.expandPages kmallocInt newSize i k) := by
  intro r result
  rw [expandPages_eq] at result
  have rounds : Yields (fun s : Nat × Kernel => P s.2 ∧ PagesOnly k s.2)
      (.ok r : Except Halt _) := by
    rw [← result]
    refine Yields.loop ⟨holds, PagesOnly.refl k⟩ ?_
    rintro ⟨i, k1⟩ ⟨holds, only⟩ test
    have more : i < newSize := of_decide_eq_true (Except.ok.inj test)
    obtain ⟨page, inArea, has, found⟩ := survives.page kmallocInt i holds
      (by rw [only.heap]; exact small) (by rw [only.heap]; omega)
    unfold expandPage
    simp only [found, ok_bind]
    exact Yields.ok ⟨survives.allocFrame k1 page (if k1.heap.supervisor ≠ 0 then 1 else 0)
      (if k1.heap.readonly ≠ 0 then 0 else 1) inArea has holds, only.allocFrame (k1.entryOf page)
      (if k1.heap.supervisor ≠ 0 then 1 else 0) (if k1.heap.readonly ≠ 0 then 0 else 1)⟩
  exact (rounds r rfl).1

theorem expand (survives : Survives area P) (holds : P k) (ext : Extensible newSize k) :
    Yields P (GekonOS.expand kmallocInt
      (k.heap.endAddress - k.heap.startAddress + newSize) k) := by
  have limit := ext.limit
  have fits := ext.fits
  have le := ext.le
  have bound := ext.bound
  have rounded : pageRounded (k.heap.endAddress - k.heap.startAddress + newSize) =
    expandedLength (k.heap.endAddress - k.heap.startAddress + newSize) :=
    pageRounded_of_lt (by omega)
  unfold GekonOS.expand
  refine (Yields.any _).bind fun _ _ => (Yields.any _).bind fun _ _ => ?_
  refine (survives.expandPages holds limit ?_).bind fun done holds => ?_
  · change k.heap.startAddress + pageRounded _ ≤ _
    rw [rounded]
    exact fits
  · exact Yields.ok (survives.elsewhere _ done.2.mem done.2.heap.index _ holds)

theorem growHeap (survives : Survives area P) (holds : P k) (ext : Extensible newSize k) :
    Yields P (GekonOS.growHeap kmallocInt newSize k) := by
  have limit := ext.limit
  have fits := ext.fits
  have le := ext.le
  have bound := ext.bound
  have above := le_expandedLength (k.heap.endAddress - k.heap.startAddress + newSize)
  have asked : Word32.add (Word32.sub k.heap.endAddress k.heap.startAddress) newSize =
      k.heap.endAddress - k.heap.startAddress + newSize := by
    rw [Word32.sub_of_le (by omega) (by omega), Word32.add_of_lt (by omega)]
  unfold GekonOS.growHeap
  simp only [asked]
  refine (survives.expand holds ext).bind fun k1 holds => ?_
  refine (Yields.any _).bind fun found _ => ?_
  refine Yields.ite (fun _ => ?_) (fun _ => ?_)
  · exact (Yields.any _).bind fun r _ =>
      Yields.ok (survives.elsewhere k1 r.2 r.1 k1.heap.endAddress holds)
  · exact (Yields.any _).bind fun header _ =>
      Yields.ok (survives.elsewhere k1 _ k1.heap.index k1.heap.endAddress holds)

theorem alloc (survives : Survives area P) {size pageAlign fuel : Nat} (sound : Sound k cs)
    (calm : AllocCalm size pageAlign k cs) (holds : P k) :
    Yields (fun r => P r.2) (GekonOS.alloc kmallocInt fuel size pageAlign k) := by
  induction fuel generalizing k cs with
  | zero =>
    intro r result
    cases result
  | succ fuel ih =>
    have small := calm.small
    rcases noneFits_or size pageAlign k with none | ⟨h, fits⟩
    · rw [alloc_grows kmallocInt fuel (by omega) none]
      intro r result
      cases grown : GekonOS.growHeap kmallocInt (size + 20) k with
      | error halt =>
        rw [grown] at result
        cases result
      | ok k1 =>
        rw [grown, ok_bind] at result
        have header := Nat.le_add_left 20 size
        have growing := sound.growing header (by omega) grown
        obtain ⟨pre, hole, longer⟩ := sound.lengthens (calm.right none) header (by omega) grown
        have next := sound.grow growing longer
        exact ih next (longer.calm sound next none calm)
          (survives.growHeap holds growing.ext k1 grown) r result
    · obtain ⟨block, k', cs', served, allocates, -⟩ := sound.serves calm kmallocInt fuel fits
      rw [served]
      refine Yields.ok ?_
      cases allocates with
      | cut free fits whole shorter cut =>
        have same := cut.same
        rw [same]
        exact survives.elsewhere k _ _ k.heap.endAddress holds
      | grow none longer later =>
        have found := List.find?_some fits
        rw [none h (List.mem_of_find?_eq_some fits)] at found
        cases found

open HeapState in
theorem step (survives : Survives area P) {s s' : HeapState} (chunks : s.Holds cs)
    {c : HeapCall} (calm : s.Calm c) (holds : P s.kernel) (step : s.Step kmallocInt c s') :
    P s'.kernel := by
  obtain ⟨-, fuel, result⟩ := step
  cases c with
  | alloc size pageAlign =>
    have kept : Yields (fun r => P r.2)
        (GekonOS.alloc kmallocInt fuel size.toNat pageAlign.toNat s.kernel) :=
      survives.alloc chunks.sound (calm cs chunks.sound) holds
    have all : Yields (fun s => P s.kernel) (s.call kmallocInt fuel (.alloc size pageAlign)) :=
      kept.bind fun r holds => Yields.ok holds
    exact all s' result
  | free p =>
    have kept : Yields P (GekonOS.free kmallocInt p s.kernel) :=
      survives.free chunks.sound holds p
    have all : Yields (fun s => P s.kernel) (s.call kmallocInt fuel (.free p)) :=
      kept.bind fun k holds => Yields.ok holds
    exact all s' result

open HeapState in
theorem run (survives : Survives area P) {s s' : HeapState} {calls : List HeapCall}
    (chunks : s.Holds cs) (separated : Separated cs) (holds : P s.kernel)
    (run : Run (Guarded Calm (Step kmallocInt)) s calls s') :
    ∃ cs', s'.Holds cs' ∧ Separated cs' ∧ P s'.kernel := by
  refine run.invariant (I := fun s => ∃ cs, s.Holds cs ∧ Separated cs ∧ P s.kernel)
    ⟨cs, chunks, separated, holds⟩ ?_
  rintro s c s' ⟨cs, chunks, separated, holds⟩ ⟨calm, step⟩
  obtain ⟨cs', chunks', separated'⟩ := chunks.separated_step separated calm step
  exact ⟨cs', chunks', separated', survives.step chunks calm holds step⟩

end Survives

end GekonOS
