import GekonOS.Heap.Calls

set_option autoImplicit false

namespace GekonOS

open ByteMemory Transition

variable {kmallocInt : Kmalloc} {k k' : Kernel} {cs cs' pre post mid front rest : List Chunk}
  {left right : Option Chunk} {hole block b : Chunk} {size pageAlign : Nat}

theorem Separated.splice (separated : Separated (pre ++ hole :: post)) (free : hole.hole = true)
    (inner : Separated mid) : Separated (pre ++ mid ++ post) := by
  obtain ⟨before, behind, toHole⟩ := List.isChain_append.mp separated
  obtain ⟨fromHole, after⟩ := List.isChain_cons.mp behind
  refine List.isChain_append.mpr ⟨List.isChain_append.mpr ⟨before, inner, ?_⟩, after, ?_⟩
  · intro c last d first both
    exact toHole c last hole rfl ⟨both.1, free⟩
  · intro c last d first both
    exact fromHole d first ⟨free, both.2⟩

theorem separated_short (few : cs.length ≤ 1) : Separated cs := by
  cases cs with
  | nil => exact List.isChain_nil
  | cons c cs =>
    cases cs with
    | nil => exact List.isChain_singleton c
    | cons d cs =>
      simp only [List.length_cons] at few
      omega

theorem Cut.separated (cut : Cut size k pre hole post front block rest k') :
    Separated (front ++ block :: rest) := by
  have used := cut.used
  refine List.isChain_append.mpr ⟨separated_short cut.few.1,
    List.isChain_cons.mpr ⟨?_, separated_short cut.few.2⟩, ?_⟩
  · intro c first both
    rw [used] at both
    cases both.1
  · intro c last d first both
    cases first
    rw [used] at both
    cases both.2

theorem Allocates.separated (allocates : Allocates size pageAlign k cs block k' cs')
    (separated : Separated cs) : Separated cs' := by
  induction allocates with
  | cut free _ _ _ cut => exact separated.splice free cut.separated
  | @grow k k1 k' cs cs' pre hole block _ longer _ ih =>
    apply ih
    rcases longer.source with ⟨rfl, full, -⟩ | ⟨last, rfl, free, -⟩
    · refine List.isChain_append.mpr ⟨separated, List.isChain_singleton hole, ?_⟩
      intro c last d _ both
      rw [full c (List.mem_of_getLast? last)] at both
      cases both.1
    · have replaced : Separated (pre ++ [hole] ++ []) :=
        separated.splice free (List.isChain_singleton hole)
      rwa [List.append_nil] at replaced

theorem separated_freed (separated : Separated (around pre left b right post))
    (beside : Beside pre left right post) : Separated (pre ++ [hole] ++ post) := by
  have merged := separated_merged separated beside
  rw [List.append_assoc] at merged
  exact Separated.splice merged (mergedHole_hole left b right) (List.isChain_singleton hole)

namespace HeapState

variable {s s' : HeapState}

theorem Holds.separated_step (holds : s.Holds cs) (separated : Separated cs) {c : HeapCall}
    (calm : s.Calm c) (step : s.Step kmallocInt c s') : ∃ cs', s'.Holds cs' ∧ Separated cs' := by
  cases c with
  | alloc size pageAlign =>
    obtain ⟨block, cs', -, after, allocates⟩ := holds.alloc calm step
    exact ⟨cs', after, allocates.separated separated⟩
  | free p =>
    obtain ⟨pre, left, b, right, post, hole, rfl, -, -, beside, -, after, -⟩ :=
      holds.free calm step
    exact ⟨pre ++ [hole] ++ post, after, separated_freed separated beside⟩

-- the index lists one hole, and that is the whole heap
def OneHole (s : HeapState) : Prop :=
  s.kernel.heap.index.entries s.kernel.mem = [s.kernel.heap.startAddress] ∧
    headerIsHole s.kernel.mem s.kernel.heap.startAddress = 1 ∧
    headerSize s.kernel.mem s.kernel.heap.startAddress =
      s.kernel.heap.endAddress - s.kernel.heap.startAddress

theorem Holds.oneHole (holds : s.Holds cs) (separated : Separated cs) (quiet : s.live = []) :
    s.OneHole := by
  have wf := holds.sound.wf
  have least := holds.sound.least
  have minimum : heapMinSize = 458752 := rfl
  have ptrs : blockPtrs cs = [] := by
    have perm := holds.live
    rw [quiet] at perm
    exact perm.eq_nil
  have free (c : Chunk) (member : c ∈ cs) : c.hole = true := by
    by_contra used
    have listed := mem_blockPtrs.mpr ⟨c, member, eq_false_of_ne_true used, rfl⟩
    rw [ptrs] at listed
    cases listed
  cases cs with
  | nil =>
    have stop : s.kernel.heap.startAddress = s.kernel.heap.endAddress := wf.layout.tiles
    omega
  | cons c cs =>
    have alone : cs = [] := by
      cases cs with
      | nil => rfl
      | cons d cs =>
        have apart := (List.isChain_cons.mp separated).1 d rfl
        exact absurd ⟨free c (by simp), free d (by simp)⟩ apart
    subst alone
    obtain ⟨start, header, -, behind⟩ := Layout.cons.mp wf.layout
    have stop : s.kernel.heap.startAddress + c.size = s.kernel.heap.endAddress := behind.tiles
    have isHole := free c (by simp)
    have entries := wf.entries
    rw [holeAddrs_cons_hole isHole, holeAddrs_nil, List.perm_singleton] at entries
    obtain ⟨-, flag, total⟩ := header
    rw [isHole] at flag
    rw [start] at entries flag total
    exact ⟨entries, flag, by omega⟩

end HeapState

open HeapState in
/--
In every run whose calls all meet the condition, a heap in which no block is in use is one hole, and
it is the only entry of the index.
-/
theorem no_leak (kmallocInt : Kmalloc) {k0 k : Kernel} (fresh : Created k0 k)
    {calls : List HeapCall} {s : HeapState}
    (run : Run (Guarded Calm (Step kmallocInt)) { kernel := k, live := [] } calls s)
    (quiet : s.live = []) : s.OneHole := by
  obtain ⟨cs, holds, separated⟩ : ∃ cs, s.Holds cs ∧ Separated cs := by
    refine run.invariant (I := fun s => ∃ cs, s.Holds cs ∧ Separated cs)
      ⟨_, fresh.holds, List.isChain_singleton _⟩ ?_
    rintro s c s' ⟨cs, holds, separated⟩ ⟨calm, step⟩
    exact holds.separated_step separated calm step
  exact holds.oneHole separated quiet

namespace HeapState

-- the first block and the hole behind it are the whole heap
theorem calm_second {s : HeapState} (start : s.kernel.heap.startAddress = 0x01081000)
    (stop : s.kernel.heap.endAddress = 0x01100000)
    (first : headerSize s.kernel.mem 0x01081000 = 28)
    (flag : headerIsHole s.kernel.mem 0x0108101C = 1)
    (second : headerSize s.kernel.mem 0x0108101C = 0x7EFE4)
    (clean : footerMagic s.kernel.mem 0x01080FF8 = 0) : s.Calm (.free 0x0108100C) := by
  intro pre left b right post ptr used beside sound
  have at_ := (sound.tagged (show b ∈ pre ++ left.toList ++ b :: (right.toList ++ post) by simp)
    used).around
  obtain ⟨lower, leftOf, rightOf, upper⟩ := at_.bounds
  rw [start] at lower
  rw [stop] at upper
  have here : b.addr = 0x01081000 := Nat.add_right_cancel ptr
  have size : b.size = 28 := by
    rw [← first, ← here]
    exact at_.header.2.2.symm
  have alone : left = none := by
    cases left with
    | none => rfl
    | some l =>
      have room := l.room
      have next := (at_.leftAt l rfl).2.2
      simp only [leftmost] at lower
      omega
  -- what comes behind the block is a hole up to the end of the heap
  have last : right ≠ none ∧ post = [] := by
    cases right with
    | none =>
      have after := at_.after
      simp only [rightmost, here, size, stop] at after
      cases post with
      | nil => exact absurd (show 0x01081000 + 28 = 0x01100000 from after.tiles) (by decide)
      | cons c post =>
        obtain ⟨behind, header, -, -⟩ := Layout.cons.mp after
        have inUse := header.2.1
        rw [behind, beside.noRight rfl c rfl, flag] at inUse
        cases inUse
    | some r =>
      obtain ⟨header, -, next⟩ := at_.rightAt r rfl
      have total := header.2.2
      rw [next, here, size, second] at total
      have after := at_.after
      simp only [rightmost, next, here, size, ← total, stop] at after
      exact ⟨by simp, after.eq_nil⟩
  obtain ⟨some_, rfl⟩ := last
  subst alone
  constructor
  case noFooter =>
    intro _ _
    refine not_unifiesLeft ?_
    rw [here, show Word32.sub 0x01081000 8 = 0x01080FF8 by decide, clean]
    decide
  case room => exact fun _ none => absurd none some_
  case inner => exact fun more => absurd rfl more
  case low =>
    intro _
    simp only [leftmost, here, start]
    decide
  case noHeader => exact fun _ none => absurd none some_

theorem no_leak_pair : ∃ k s, Run (Guarded Calm (Step (GekonOS.kmallocInt 0)))
    { kernel := k, live := [] } [.alloc 8 0, .free 0x0108100C] s ∧ s.OneHole := by
  obtain ⟨k, s, fresh, run, live, start, stop, first, flag, second, clean⟩ := first_alloc
  have calm := calm_second start stop first flag second clean
  obtain ⟨cs, holds⟩ := fresh.run_holds run
  have member : 0x0108100C ∈ s.live := by
    rw [live]
    exact List.mem_singleton_self _
  obtain ⟨-, -, -, -, -, -, k', -, -, -, -, freed, -⟩ :=
    holds.frees member calm (GekonOS.kmallocInt 0)
  have step : Step (GekonOS.kmallocInt 0) s (.free 0x0108100C) { kernel := k', live := [] } := by
    refine ⟨fun p freed => ?_, 0, ?_⟩
    · rw [List.mem_singleton.mp freed]
      exact member
    · change (GekonOS.free (GekonOS.kmallocInt 0) 0x0108100C s.kernel >>= _) = _
      rw [freed, live]
      rfl
  have both := run.snoc ⟨calm, step⟩
  exact ⟨k, _, both, no_leak (GekonOS.kmallocInt 0) fresh both rfl⟩

end HeapState

open HeapState in
set_option maxRecDepth 100000 in
/--
The first of three blocks is freed after the second, and the footer of the two still points to the
second when the third is freed.
-/
theorem three_blocks_leak : ∃ k0 k calls s, Created k0 k ∧
    Run (Step (GekonOS.kmallocInt 0)) { kernel := k, live := [] } calls s ∧ s.live = [] ∧ ¬ s.OneHole := by
  have seen : observe
      [.alloc 8 0, .alloc 8 0, .alloc 8 0, .free 0x01081028, .free 0x0108100C, .free 0x01081044]
      (fun s => (s.live, s.kernel.heap.startAddress, s.kernel.heap.endAddress,
        headerSize s.kernel.mem 0x01081000)) = some ([], 0x01081000, 0x010F1000, 56) := by
    decide +kernel
  obtain ⟨k, s, fresh, run, same⟩ := observe_run seen
  simp only [Prod.mk.injEq] at same
  obtain ⟨quiet, start, stop, size⟩ := same
  refine ⟨mappedKernel, k, _, s, fresh, run, quiet, ?_⟩
  rintro ⟨-, -, whole⟩
  rw [start, stop, size] at whole
  exact absurd whole (by decide)

end GekonOS
