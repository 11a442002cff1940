import GekonOS.Heap.Create
import GekonOS.Heap.Freed
import GekonOS.Heap.Served
import GekonOS.Shared.Transition

set_option autoImplicit false

namespace GekonOS

open ByteMemory Placement Transition

inductive HeapCall
  | alloc (size : UInt32) (pageAlign : UInt8)
  | free (p : Nat)

def HeapCall.freed : HeapCall → List Nat
  | .alloc _ _ => []
  | .free p => [p]

/-- The kernel, and the pointers that `alloc` has returned and that are not freed yet. -/
structure HeapState where
  kernel : Kernel
  live : List Nat

namespace HeapState

def call (kmallocInt : Kmalloc) (fuel : Nat) (s : HeapState) : HeapCall → Except Halt HeapState
  | .alloc size pageAlign => do
    let (p, k) ← GekonOS.alloc kmallocInt fuel size.toNat pageAlign.toNat s.kernel
    pure { kernel := k, live := p :: s.live }
  | .free p => do
    let k ← GekonOS.free kmallocInt p s.kernel
    pure { kernel := k, live := s.live.erase p }

-- nothing but a pointer that is in use is freed
def Owned (s : HeapState) (c : HeapCall) : Prop := ∀ p ∈ c.freed, p ∈ s.live

instance (s : HeapState) (c : HeapCall) : Decidable (s.Owned c) :=
  inferInstanceAs (Decidable (∀ p ∈ c.freed, p ∈ s.live))

-- the call returns, so no `ASSERT` fails in it
def Step (kmallocInt : Kmalloc) (s : HeapState) (c : HeapCall) (s' : HeapState) : Prop :=
  s.Owned c ∧ ∃ fuel, s.call kmallocInt fuel c = .ok s'

-- the bytes from the header in front of `p` to the end of the footer
def block (s : HeapState) (p : Nat) : Set Nat :=
  Set.Ico (p - 12) (p - 12 + headerSize s.kernel.mem (p - 12))

structure Safe (s : HeapState) : Prop where
  disjoint : s.live.Pairwise fun p q => Disjoint (s.block p) (s.block q)
  inside : ∀ p ∈ s.live, 20 ≤ headerSize s.kernel.mem (p - 12) ∧
    s.block p ⊆ Set.Ico s.kernel.heap.startAddress s.kernel.heap.endAddress

-- what is in use before and after the call is as it was
def Keeps (s s' : HeapState) : Prop :=
  ∀ p ∈ s.live, p ∈ s'.live → Set.EqOn s'.kernel.mem s.kernel.mem (s.block p)

/-- The call meets the condition of `alloc` or the one of `free` in the heap that it finds. -/
def Calm (s : HeapState) : HeapCall → Prop
  | .alloc size pageAlign => ∀ cs, Sound s.kernel cs →
      AllocCalm size.toNat pageAlign.toNat s.kernel cs
  | .free p => ∀ pre left b right post, b.addr + sizeofHeader = p → b.hole = false →
      Beside pre left right post → Sound s.kernel (around pre left b right post) →
      FreeCalm s.kernel pre left b right post

/-- The chunks are sound, and the blocks among them are those in use. -/
structure Holds (s : HeapState) (cs : List Chunk) : Prop where
  sound : Sound s.kernel cs
  live : (blockPtrs cs).Perm s.live

end HeapState

/-- `k` is what `create_heap` has made of `k0` with the arguments that `heap_install` passes. -/
structure Created (k0 k : Kernel) : Prop where
  noHeap : k0.kheap = 0
  fits : alignedAddress k0.placementAddress 1 + 32 < 4294967296
  created : ∃ fuel addr, installCreate (kmallocInt fuel) k0 = .ok (addr, k)
  mapped : Mapped k kheapMax

namespace HeapState

variable {kmallocInt : Kmalloc} {s s' : HeapState} {cs : List Chunk} {c d : Chunk} {p : Nat}

theorem block_eq (sound : Sound s.kernel cs) (member : c ∈ cs) :
    s.block (c.addr + sizeofHeader) = c.bytes := by
  rw [block, sizeofHeader, Nat.add_sub_cancel, sound.wf.headerSize_entry member]
  rfl

-- a pointer in use belongs to a block among the chunks
theorem Holds.owner (holds : s.Holds cs) (live : p ∈ s.live) :
    ∃ c ∈ cs, c.hole = false ∧ c.addr + sizeofHeader = p :=
  mem_blockPtrs.mp (holds.live.mem_iff.mpr live)

theorem Holds.nodup (holds : s.Holds cs) : s.live.Nodup := by
  refine holds.live.nodup_iff.mp ?_
  have ptrs : ((cs.map Chunk.addr).map (· + sizeofHeader)).Nodup :=
    holds.sound.wf.layout.tiles.addr_nodup.map fun a b same => Nat.add_right_cancel same
  rw [List.map_map] at ptrs
  exact ptrs.sublist (List.filter_sublist.map _)

theorem Holds.safe (holds : s.Holds cs) : s.Safe := by
  have sound := holds.sound
  constructor
  case disjoint =>
    refine (holds.live.pairwise_iff fun apart => apart.symm).mp ?_
    rw [blockPtrs, List.pairwise_map, List.pairwise_filter]
    refine sound.wf.layout.tiles.pairwise.imp_of_mem ?_
    intro c d left right before _ _
    rw [block_eq sound left, block_eq sound right, Set.disjoint_left]
    intro x inLeft inRight
    simp only [Chunk.bytes, Set.mem_Ico] at inLeft inRight
    omega
  case inside =>
    intro p live
    obtain ⟨c, member, -, rfl⟩ := holds.owner live
    have bounds := sound.wf.layout.bounds member
    rw [block_eq sound member, sizeofHeader, Nat.add_sub_cancel,
      sound.wf.headerSize_entry member]
    exact ⟨c.room, Set.Ico_subset_Ico bounds.1 bounds.2⟩

/-! ## One call -/

theorem Holds.alloc {size : UInt32} {pageAlign : UInt8} (holds : s.Holds cs)
    (calm : s.Calm (.alloc size pageAlign)) (step : s.Step kmallocInt (.alloc size pageAlign) s') :
    ∃ block cs', s'.live = (block.addr + sizeofHeader) :: s.live ∧ s'.Holds cs' ∧
      Allocates size.toNat pageAlign.toNat s.kernel cs block s'.kernel cs' := by
  obtain ⟨-, fuel, result⟩ := step
  change (GekonOS.alloc kmallocInt fuel size.toNat pageAlign.toNat s.kernel >>= _) = _ at result
  cases called : GekonOS.alloc kmallocInt fuel size.toNat pageAlign.toNat s.kernel with
  | error halt =>
    rw [called] at result
    cases result
  | ok answer =>
    rw [called] at result
    cases result
    obtain ⟨block, cs', ptr, allocates, after⟩ :=
      alloc_allocates holds.sound (calm cs holds.sound) called
    refine ⟨block, cs', congrArg (· :: s.live) ptr, ⟨after, ?_⟩, allocates⟩
    exact allocates.ptrs.trans (ptr ▸ holds.live.cons _)

theorem Holds.frees (holds : s.Holds cs) (live : p ∈ s.live) (calm : s.Calm (.free p))
    (kmallocInt : Kmalloc) :
    ∃ pre left b right post hole k', cs = around pre left b right post ∧ b.hole = false ∧
      b.addr + sizeofHeader = p ∧ Beside pre left right post ∧
      GekonOS.free kmallocInt p s.kernel = .ok k' ∧
      Holds { kernel := k', live := s.live.erase p } (pre ++ [hole] ++ post) ∧
      Frees s.kernel pre left b right post k' hole := by
  obtain ⟨b, member, used, rfl⟩ := holds.owner live
  obtain ⟨xs, ys, rfl⟩ := List.append_of_mem member
  obtain ⟨pre, left, right, post, split, beside⟩ := exists_around xs b ys
  rw [split] at holds
  obtain ⟨k', hole, freed, frees, after⟩ := free_frees holds.sound used beside
    (calm pre left b right post rfl used beside holds.sound) kmallocInt
  refine ⟨pre, left, b, right, post, hole, k', split, used, rfl, beside, freed, ⟨after, ?_⟩, frees⟩
  have first := ((around_ptrs used frees.free beside).symm.trans holds.live).erase
    (b.addr + sizeofHeader)
  rw [List.erase_cons_head] at first
  exact first

theorem Holds.free (holds : s.Holds cs) (calm : s.Calm (.free p))
    (step : s.Step kmallocInt (.free p) s') :
    ∃ pre left b right post hole, cs = around pre left b right post ∧ b.hole = false ∧
      b.addr + sizeofHeader = p ∧ Beside pre left right post ∧ s'.live = s.live.erase p ∧
      s'.Holds (pre ++ [hole] ++ post) ∧
      Frees s.kernel pre left b right post s'.kernel hole := by
  obtain ⟨owned, fuel, result⟩ := step
  obtain ⟨pre, left, b, right, post, hole, k', split, used, ptr, beside, freed, after, frees⟩ :=
    holds.frees (owned p (List.mem_singleton_self p)) calm kmallocInt
  change (GekonOS.free kmallocInt p s.kernel >>= _) = _ at result
  rw [freed] at result
  cases result
  exact ⟨pre, left, b, right, post, hole, split, used, ptr, beside, rfl, after, frees⟩

theorem Holds.step (holds : s.Holds cs) {c : HeapCall} (calm : s.Calm c)
    (step : s.Step kmallocInt c s') : ∃ cs', s'.Holds cs' := by
  cases c with
  | alloc size pageAlign =>
    obtain ⟨block, cs', -, after, -⟩ := holds.alloc calm step
    exact ⟨cs', after⟩
  | free p =>
    obtain ⟨pre, left, b, right, post, hole, -, -, -, -, -, after, -⟩ := holds.free calm step
    exact ⟨pre ++ [hole] ++ post, after⟩

theorem Holds.keeps (holds : s.Holds cs) {c : HeapCall} (calm : s.Calm c)
    (step : s.Step kmallocInt c s') : s.Keeps s' := by
  have sound := holds.sound
  intro q live still
  obtain ⟨d, member, used, rfl⟩ := holds.owner live
  rw [block_eq sound member]
  cases c with
  | alloc size pageAlign =>
    obtain ⟨block, cs', -, -, allocates⟩ := holds.alloc calm step
    exact (allocates.keeps sound.wf member used).2
  | free p =>
    obtain ⟨pre, left, b, right, post, hole, rfl, inUse, rfl, beside, live', -, frees⟩ :=
      holds.free calm step
    -- the block that is freed is not in use any more
    have apart : d ≠ b := by
      rintro rfl
      rw [live'] at still
      exact holds.nodup.not_mem_erase still
    exact frees.keeps sound.wf (beside.mem_others member used apart)

end HeapState

/-! ## From `create_heap` on -/

theorem Created.holds {k0 k : Kernel} (fresh : Created k0 k) :
    HeapState.Holds { kernel := k, live := [] } [firstHole] := by
  obtain ⟨fuel, addr, created⟩ := fresh.created
  obtain ⟨m, result, entries, header⟩ := installCreate_correct fuel k0 fresh.noHeap fresh.fits
  have mapped := fresh.mapped
  rw [result] at created
  cases created
  have apart : Disjoint (createdHeap.index.region createdHeap.index.maxSize)
      (Set.Ico createdHeap.startAddress createdHeap.maxAddress) := by
    rw [Set.disjoint_left]
    intro x inArray inHeap
    simp only [OrderedArray.region, createdHeap, kheapStart, heapIndexSize, Set.mem_Ico]
      at inArray inHeap
    omega
  refine ⟨?_, List.Perm.refl _⟩
  constructor
  case wf =>
    refine ⟨Layout.singleton rfl (show 0x01081000 + 0x7F000 = 0x01100000 by decide) header
        fun footed => absurd rfl (footed rfl), ?_, rfl,
      show 1 ≤ heapIndexSize by decide, show 0 < heapIndexSize by decide,
      apart.mono_right (Set.Ico_subset_Ico_right (show 0x01100000 ≤ kheapMax by decide)),
      show 0x01100000 < 4294967296 by decide⟩
    change (createdHeap.index.entries m).Perm _
    rw [entries]
    exact List.Perm.refl _
  case aligned => exact show 0x01081000 % 4096 = 0 by decide
  case low => exact show 4096 ≤ 0x01081000 by decide
  case page => exact show (0x01100000 - 0x01081000) % 4096 = 0 by decide
  case least => exact show heapMinSize ≤ 0x01100000 - 0x01081000 by decide
  case bound => exact show 0x01100000 ≤ kheapMax by decide
  case limit => exact show kheapMax < 1073741824 by decide
  case apart => exact apart
  case capacity => exact show 1 < heapIndexSize by decide
  case mapped => exact mapped

open HeapState in
theorem Created.run_holds {k0 k : Kernel} (fresh : Created k0 k) {kmallocInt : Kmalloc}
    {calls : List HeapCall} {s : HeapState}
    (run : Run (Guarded Calm (Step kmallocInt)) { kernel := k, live := [] } calls s) :
    ∃ cs, s.Holds cs := by
  refine run.invariant (I := fun s => ∃ cs, s.Holds cs) ⟨_, fresh.holds⟩ ?_
  rintro s c s' ⟨cs, holds⟩ ⟨calm, step⟩
  exact holds.step calm step

open HeapState in
/--
In every run whose calls all meet the condition, the blocks in use are apart from one another and
inside the heap, and a call changes no byte of a block that is in use before and after it.
-/
theorem heap_safe (kmallocInt : Kmalloc) {k0 k : Kernel} (fresh : Created k0 k)
    {calls : List HeapCall} {s : HeapState}
    (run : Run (Guarded Calm (Step kmallocInt)) { kernel := k, live := [] } calls s) :
    s.Safe ∧ ∀ c s', s.Calm c → s.Step kmallocInt c s' → s.Keeps s' := by
  obtain ⟨cs, holds⟩ := fresh.run_holds run
  exact ⟨holds.safe, fun c s' calm step => holds.keeps calm step⟩

-- before the heap is there, with all its page tables
def mappedKernel : Kernel :=
  { Kernel.boot with
    directory := { tablesPhysical := fun _ => 7, tables := fun _ => 4096, physicalAddr := 0 } }

theorem mappedKernel_created : ∃ k addr, installCreate (kmallocInt 0) mappedKernel = .ok (addr, k) ∧
    Created mappedKernel k := by
  have fits : alignedAddress mappedKernel.placementAddress 1 + 32 < 4294967296 := by decide
  obtain ⟨m, result, -⟩ := installCreate_correct 0 mappedKernel rfl fits
  exact ⟨_, _, result, rfl, fits, ⟨0, _, result⟩,
    fun _ _ _ => show 7 &&& 1 ≠ 0 ∧ 4096 ≠ 0 by decide⟩

namespace HeapState

-- the calls one after the other, as long as they are allowed and return
def calls (kmallocInt : Kmalloc) (fuel : Nat) : HeapState → List HeapCall → Option HeapState
  | s, [] => some s
  | s, c :: cs =>
    if s.Owned c then
      (s.call kmallocInt fuel c).toOption.bind fun s => calls kmallocInt fuel s cs
    else none

theorem calls_run {kmallocInt : Kmalloc} {fuel : Nat} {s s' : HeapState} {cs : List HeapCall}
    (result : calls kmallocInt fuel s cs = some s') : Run (Step kmallocInt) s cs s' := by
  induction cs generalizing s with
  | nil =>
    cases result
    exact Run.nil
  | cons c cs ih =>
    unfold calls at result
    by_cases owned : s.Owned c
    · rw [if_pos owned] at result
      cases called : s.call kmallocInt fuel c with
      | error halt =>
        rw [called] at result
        cases result
      | ok t =>
        rw [called] at result
        exact Run.cons ⟨owned, fuel, called⟩ (ih result)
    · rw [if_neg owned] at result
      cases result

-- the calls on the heap that is created in `mappedKernel`, and what there is to see of the outcome
def observe {α : Type} (cs : List HeapCall) (f : HeapState → α) : Option α :=
  (installCreate (kmallocInt 0) mappedKernel).toOption.bind fun created =>
    (calls (kmallocInt 0) 1 { kernel := created.2, live := [] } cs).map f

theorem calls_snoc {kmallocInt : Kmalloc} {fuel : Nat} {s t : HeapState} (cs : List HeapCall)
    {c : HeapCall} (result : calls kmallocInt fuel s (cs ++ [c]) = some t) :
    ∃ s', calls kmallocInt fuel s cs = some s' ∧ s'.Step kmallocInt c t := by
  induction cs generalizing s with
  | nil =>
    obtain ⟨s', before, step⟩ := Run.last (calls_run result)
    cases before.nil_eq
    exact ⟨s, rfl, step⟩
  | cons d cs ih =>
    rw [List.cons_append] at result
    unfold calls at result ⊢
    by_cases owned : s.Owned d
    · rw [if_pos owned] at result ⊢
      obtain ⟨s1, called, rest⟩ := Option.bind_eq_some_iff.mp result
      obtain ⟨s', before, step⟩ := ih rest
      exact ⟨s', Option.bind_eq_some_iff.mpr ⟨s1, called, before⟩, step⟩
    · rw [if_neg owned] at result
      cases result

theorem observe_calls : ∃ k, Created mappedKernel k ∧ ∀ {α : Type} {cs : List HeapCall}
    {f : HeapState → α} {seen : α}, observe cs f = some seen →
      ∃ s, calls (kmallocInt 0) 1 { kernel := k, live := [] } cs = some s ∧ f s = seen := by
  obtain ⟨k, addr, created, fresh⟩ := mappedKernel_created
  refine ⟨k, fresh, fun result => ?_⟩
  unfold observe at result
  rw [created] at result
  exact Option.map_eq_some_iff.mp result

theorem observe_run {α : Type} {cs : List HeapCall} {f : HeapState → α} {seen : α}
    (result : observe cs f = some seen) : ∃ k s, Created mappedKernel k ∧
      Run (Step (kmallocInt 0)) { kernel := k, live := [] } cs s ∧ f s = seen := by
  obtain ⟨k, fresh, follows⟩ := observe_calls
  obtain ⟨s, called, same⟩ := follows result
  exact ⟨k, s, fresh, calls_run called, same⟩

set_option maxRecDepth 100000 in
/-- The second block starts beyond the least length, and when it is freed the first is cut off. -/
theorem heap_unsafe : ∃ k0 k calls s, Created k0 k ∧
    Run (Step (kmallocInt 0)) { kernel := k, live := [] } calls s ∧ ¬ s.Safe := by
  have seen : observe
      [.alloc 0x70FEC 0, .alloc 8 0, .free (0x01081000 + 0x71000 + 12)]
      (fun s => (s.live, headerSize s.kernel.mem 0x01081000, s.kernel.heap.endAddress)) =
        some ([0x0108100C], 0x71000, 0x010F1000) := by
    decide +kernel
  obtain ⟨k, s, fresh, run, same⟩ := observe_run seen
  refine ⟨mappedKernel, k, _, s, fresh, run, ?_⟩
  intro safe
  simp only [Prod.mk.injEq] at same
  obtain ⟨live, size, stop⟩ := same
  have inside := (safe.inside 0x0108100C (by rw [live]; exact List.mem_singleton_self _)).2
  have last : 0x010F1000 ∈ s.block 0x0108100C := by
    rw [block, size]
    exact ⟨by decide, by decide⟩
  have below := (inside last).2
  rw [stop] at below
  exact absurd below (by decide)

end HeapState

namespace HeapState

-- a request without page alignment that some hole has room for
theorem calm_plain {s : HeapState} {size : UInt32} {h : Nat} (small : size.toNat < 1073741824)
    (listed : h ∈ s.kernel.heap.index.entries s.kernel.mem)
    (enough : size.toNat + 20 ≤ headerSize s.kernel.mem h) : s.Calm (.alloc size 0) := by
  have fits : ¬ NoneFits size.toNat 0 s.kernel := by
    intro none
    have refused := none h listed
    simp only [holeFits, gt_iff_lt, Nat.lt_irrefl, if_false, decide_eq_false_iff_not] at refused
    exact refused enough
  exact fun cs _ => ⟨small, fun none => absurd none fits, fun aligned => absurd rfl aligned,
    fun aligned => absurd rfl aligned⟩

/-- Two blocks at the start of the heap, and nothing in front of them that looks like a footer. -/
structure TwoBlocks (k : Kernel) : Prop where
  start : k.heap.startAddress = 0x01081000
  first : headerSize k.mem 0x01081000 = 28
  second : headerIsHole k.mem 0x0108101C = 0
  clean : footerMagic k.mem 0x01080FF8 = 0
  spare : k.heap.index.size < k.heap.index.maxSize

theorem TwoBlocks.congr {k : Kernel} {m : Mem} (two : TwoBlocks k)
    (same : Set.EqOn m k.mem (Set.Ico 0x01080FF8 0x01081024)) : TwoBlocks { k with mem := m } := by
  constructor
  case start => exact two.start
  case first =>
    refine (read32_congr (same.mono ?_)).trans two.first
    exact Set.Ico_subset_Ico (by decide) (by decide)
  case second => exact (read8_congr (same ⟨by decide, by decide⟩)).trans two.second
  case clean =>
    refine (read32_congr (same.mono ?_)).trans two.clean
    exact Set.Ico_subset_Ico (by decide) (by decide)
  case spare => exact two.spare

theorem TwoBlocks.noLeft {k : Kernel} (two : TwoBlocks k) {pre post : List Chunk}
    {left right : Option Chunk} {b : Chunk} (ptr : b.addr + sizeofHeader = 0x0108100C)
    (used : b.hole = false) (sound : Sound k (around pre left b right post)) : left = none := by
  have at_ := (sound.tagged (show b ∈ pre ++ left.toList ++ b :: (right.toList ++ post) by simp)
    used).around
  obtain ⟨lower, -⟩ := at_.bounds
  rw [two.start] at lower
  have here : b.addr = 0x01081000 := Nat.add_right_cancel ptr
  cases left with
  | none => rfl
  | some l =>
    have room := l.room
    have next := (at_.leftAt l rfl).2.2
    simp only [leftmost] at lower
    omega

theorem TwoBlocks.calm {s : HeapState} (two : TwoBlocks s.kernel) : s.Calm (.free 0x0108100C) := by
  intro pre left b right post ptr used beside sound
  have at_ := (sound.tagged (show b ∈ pre ++ left.toList ++ b :: (right.toList ++ post) by simp)
    used).around
  have least := sound.least
  have minimum : heapMinSize = 458752 := rfl
  obtain ⟨lower, leftOf, rightOf, upper⟩ := at_.bounds
  rw [two.start] at lower
  have here : b.addr = 0x01081000 := Nat.add_right_cancel ptr
  have size : b.size = 28 := by
    rw [← two.first, ← here]
    exact at_.header.2.2.symm
  have noRight : right = none := by
    cases right with
    | none => rfl
    | some r =>
      obtain ⟨header, -, next⟩ := at_.rightAt r rfl
      have inUse := header.2.1
      rw [next, here, size, beside.rightHole r rfl, two.second] at inUse
      cases inUse
  have more : post ≠ [] := by
    rintro rfl
    have whole := at_.after
    simp only [noRight, rightmost, here, size] at whole
    have stop : 0x01081000 + 28 = s.kernel.heap.endAddress := whole.tiles
    rw [two.start] at least
    omega
  constructor
  case noFooter =>
    intro _ _
    refine not_unifiesLeft ?_
    rw [here, show Word32.sub 0x01081000 8 = 0x01080FF8 by decide, two.clean]
    decide
  case room => exact fun _ _ => two.spare
  case inner => exact fun _ => noRight
  case low => exact fun none => absurd none more
  case noHeader => exact fun none => absurd none more

set_option maxRecDepth 100000 in
-- the heap after the first call
theorem first_alloc : ∃ k s, Created mappedKernel k ∧
    Run (Guarded Calm (Step (kmallocInt 0))) { kernel := k, live := [] } [.alloc 8 0] s ∧
    s.live = [0x0108100C] ∧ s.kernel.heap.startAddress = 0x01081000 ∧
    s.kernel.heap.endAddress = 0x01100000 ∧ headerSize s.kernel.mem 0x01081000 = 28 ∧
    headerIsHole s.kernel.mem 0x0108101C = 1 ∧
    headerSize s.kernel.mem 0x0108101C = 0x7EFE4 ∧ footerMagic s.kernel.mem 0x01080FF8 = 0 := by
  have seen : observe [.alloc 8 0] (fun s => (s.live, [s.kernel.heap.startAddress,
      s.kernel.heap.endAddress, headerSize s.kernel.mem 0x01081000,
      headerIsHole s.kernel.mem 0x0108101C, headerSize s.kernel.mem 0x0108101C,
      footerMagic s.kernel.mem 0x01080FF8])) =
        some ([0x0108100C], [0x01081000, 0x01100000, 28, 1, 0x7EFE4, 0]) := by
    decide +kernel
  obtain ⟨k, s, fresh, run, same⟩ := observe_run seen
  simp only [Prod.mk.injEq, List.cons.injEq, and_true] at same
  obtain ⟨t, before, step⟩ := Run.last (show Run _ _ ([] ++ [HeapCall.alloc 8 0]) s from run)
  rw [before.nil_eq] at step
  have listed := fresh.holds.sound.wf.mem_entries.mpr ⟨_, List.mem_singleton_self firstHole, rfl, rfl⟩
  have total := fresh.holds.sound.wf.headerSize_entry (List.mem_singleton_self firstHole)
  have calm : Calm { kernel := k, live := [] } (.alloc 8 0) :=
    calm_plain (by decide) listed (by rw [total]; decide)
  exact ⟨k, s, fresh, Run.nil.snoc ⟨calm, step⟩, same⟩

set_option maxRecDepth 100000 in
theorem three_calls : ∃ k s1 s2 s3, Created mappedKernel k ∧
    Guarded Calm (Step (kmallocInt 0)) { kernel := k, live := [] } (.alloc 8 0) s1 ∧
    Guarded Calm (Step (kmallocInt 0)) s1 (.alloc 8 0) s2 ∧
    Guarded Calm (Step (kmallocInt 0)) s2 (.free 0x0108100C) s3 ∧
    s1.live = [0x0108100C] ∧ s2.live = [0x01081028, 0x0108100C] ∧ TwoBlocks s2.kernel ∧
    (s3.kernel.heap.index.entries s3.kernel.mem).map (headerSize s3.kernel.mem) = [28, 0x7EFC8] := by
  have seen0 : observe [] (fun s => (s.kernel.heap.index.entries s.kernel.mem,
      headerSize s.kernel.mem 0x01081000)) = some ([0x01081000], 0x7F000) := by
    decide +kernel
  have seen1 : observe [.alloc 8 0] (fun s => (s.live,
      s.kernel.heap.index.entries s.kernel.mem, headerSize s.kernel.mem 0x0108101C)) =
        some ([0x0108100C], [0x0108101C], 0x7EFE4) := by
    decide +kernel
  have seen2 : observe [.alloc 8 0, .alloc 8 0] (fun s => (s.live, [s.kernel.heap.startAddress,
      headerSize s.kernel.mem 0x01081000, headerIsHole s.kernel.mem 0x0108101C,
      footerMagic s.kernel.mem 0x01080FF8, s.kernel.heap.index.size,
      s.kernel.heap.index.maxSize])) =
        some ([0x01081028, 0x0108100C], [0x01081000, 28, 0, 0, 1, 0x20000]) := by
    decide +kernel
  have seen3 : observe [.alloc 8 0, .alloc 8 0, .free 0x0108100C] (fun s =>
      (s.kernel.heap.index.entries s.kernel.mem).map (headerSize s.kernel.mem)) =
        some [28, 0x7EFC8] := by
    decide +kernel
  obtain ⟨k, fresh, follows⟩ := observe_calls
  obtain ⟨s0, called0, same0⟩ := follows seen0
  obtain ⟨s1, called1, same1⟩ := follows seen1
  obtain ⟨s2, called2, same2⟩ := follows seen2
  obtain ⟨s3, called3, sizes⟩ := follows seen3
  simp only [Prod.mk.injEq, List.cons.injEq, and_true] at same0 same1 same2
  obtain ⟨entries0, total0⟩ := same0
  obtain ⟨live1, entries1, total1⟩ := same1
  obtain ⟨live2, start, first, second, clean, size, most⟩ := same2
  obtain ⟨t0, before0, step1⟩ := calls_snoc [] called1
  obtain ⟨t1, before1, step2⟩ := calls_snoc [.alloc 8 0] called2
  obtain ⟨t2, before2, step3⟩ := calls_snoc [.alloc 8 0, .alloc 8 0] called3
  obtain rfl := Option.some.inj (before0.symm.trans called0)
  obtain rfl := Option.some.inj (before1.symm.trans called1)
  obtain rfl := Option.some.inj (before2.symm.trans called2)
  cases called0
  have two : TwoBlocks t2.kernel := ⟨start, first, second, clean, by rw [size, most]; decide⟩
  have calm1 : Calm { kernel := k, live := [] } (.alloc 8 0) :=
    calm_plain (by decide) (by rw [entries0]; exact List.mem_singleton_self _)
      (by rw [total0]; decide)
  have calm2 : t1.Calm (.alloc 8 0) :=
    calm_plain (by decide) (by rw [entries1]; exact List.mem_singleton_self _)
      (by rw [total1]; decide)
  exact ⟨k, t1, t2, s3, fresh, ⟨calm1, step1⟩, ⟨calm2, step2⟩, ⟨two.calm, step3⟩, live1, live2,
    two, sizes⟩

theorem heap_safe_first : ∃ k s, Run (Guarded Calm (Step (kmallocInt 0)))
    { kernel := k, live := [] } [.alloc 8 0, .alloc 8 0, .free 0x0108100C] s ∧
    (s.Safe ∧ ∀ c s', s.Calm c → s.Step (kmallocInt 0) c s' → s.Keeps s') := by
  obtain ⟨k, s1, s2, s3, fresh, step1, step2, step3, -⟩ := three_calls
  have run := ((Run.nil.snoc step1).snoc step2).snoc step3
  exact ⟨k, s3, run, heap_safe (kmallocInt 0) fresh run⟩

end HeapState

end GekonOS
