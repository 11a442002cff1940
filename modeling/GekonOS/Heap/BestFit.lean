import GekonOS.Heap.Calls
import GekonOS.Heap.Sorted

set_option autoImplicit false

namespace GekonOS

open ByteMemory Transition

variable {kmallocInt : Kmalloc} {m m' : Mem} {k k' k1 : Kernel}
  {cs cs' pre post front rest : List Chunk} {left right : Option Chunk} {hole block b : Chunk}
  {size pageAlign a v : Nat} {entries : List Nat} {tagged : Chunk → Prop}

-- the entry `a` may have the size `v` where it is
def FitsAt (m : Mem) (entries : List Nat) (a v : Nat) : Prop :=
  ∀ xs ys, entries = xs ++ a :: ys →
    (∀ x ∈ xs, headerSize m x ≤ v) ∧ ∀ y ∈ ys, v ≤ headerSize m y

theorem sorted_congr (sorted : entries.Pairwise (sizeLe m))
    (same : ∀ x ∈ entries, headerSize m' x = headerSize m x) : entries.Pairwise (sizeLe m') := by
  refine sorted.imp_of_mem ?_
  intro x y left right le
  unfold sizeLe
  rw [same x left, same y right]
  exact le

theorem sorted_orderedInsert (sorted : entries.Pairwise (sizeLe m)) (a : Nat) :
    (entries.orderedInsert (sizeLe m) a).Pairwise (sizeLe m) :=
  Sorted.pairwise_orderedInsert (fun _ _ less => Nat.le_of_not_le less)
    (fun _ _ _ _ first second => Nat.le_trans first second) sorted

theorem sorted_foldr (sorted : entries.Pairwise (sizeLe m)) (items : List Nat) :
    (items.foldr (fun a => List.orderedInsert (sizeLe m) a) entries).Pairwise (sizeLe m) := by
  induction items with
  | nil => exact sorted
  | cons a items ih => exact sorted_orderedInsert ih a

theorem erase_middle {xs ys : List Nat} (nodup : (xs ++ a :: ys).Nodup) :
    (xs ++ a :: ys).erase a = xs ++ ys := by
  have absent : a ∉ xs := fun member =>
    (List.nodup_append.mp nodup).2.2 a member a List.mem_cons_self rfl
  rw [List.erase_append_right _ absent, List.erase_cons_head]

theorem FitsAt.congr (fits : FitsAt m entries a v) (nodup : entries.Nodup)
    (same : ∀ x ∈ entries, x ≠ a → headerSize m' x = headerSize m x) : FitsAt m' entries a v := by
  rintro xs ys rfl
  obtain ⟨before, behind⟩ := fits xs ys rfl
  have apart {x : Nat} (member : x ∈ xs ++ ys) : x ≠ a := by
    rw [← erase_middle nodup] at member
    exact (nodup.mem_erase_iff.mp member).1
  constructor
  · intro x member
    rw [same x (List.mem_append_left _ member) (apart (List.mem_append_left _ member))]
    exact before x member
  · intro y member
    rw [same y (List.mem_append_right _ (List.mem_cons_of_mem _ member))
      (apart (List.mem_append_right _ member))]
    exact behind y member

theorem FitsAt.sorted (fits : FitsAt m entries a (headerSize m a)) (nodup : entries.Nodup)
    (others : (entries.erase a).Pairwise (sizeLe m)) : entries.Pairwise (sizeLe m) := by
  by_cases listed : a ∈ entries
  · obtain ⟨xs, ys, rfl⟩ := List.append_of_mem listed
    rw [erase_middle nodup] at others
    obtain ⟨before, behind, across⟩ := List.pairwise_append.mp others
    obtain ⟨below, above⟩ := fits xs ys rfl
    refine List.pairwise_append.mpr ⟨before, List.pairwise_cons.mpr ⟨above, behind⟩, ?_⟩
    intro x left y right
    cases List.mem_cons.mp right with
    | inl here => exact here ▸ below x left
    | inr later => exact across x left y later
  · rwa [List.erase_of_not_mem listed] at others

/-! ## `alloc` -/

/-- The entries are sorted but for `a`, and so is the front part of `a` when there is one. -/
structure Poised (pageAlign : Nat) (m : Mem) (entries : List Nat) (a : Nat) : Prop where
  others : (entries.erase a).Pairwise (sizeLe m)
  front : pageAlign ≠ 0 → FitsAt m entries a (frontLength a)

theorem Poised.congr (poised : Poised pageAlign m entries a) (nodup : entries.Nodup)
    (same : ∀ x ∈ entries, x ≠ a → headerSize m' x = headerSize m x) :
    Poised pageAlign m' entries a := by
  constructor
  case others =>
    refine sorted_congr poised.others ?_
    intro x member
    obtain ⟨apart, listed⟩ := nodup.mem_erase_iff.mp member
    exact same x listed apart
  case front => exact fun aligned => (poised.front aligned).congr nodup same

theorem Cut.sorted (cut : Cut size k pre hole post front block rest k')
    (wf : WellFormed tagged k (pre ++ hole :: post))
    (shape : front ≠ [] → pageAlign ≠ 0 ∧ ∃ room, front = [frontOf hole room])
    (poised : Poised pageAlign k.mem (k.heap.index.entries k.mem) hole.addr) :
    (k'.heap.index.entries k'.mem).Pairwise (sizeLe k'.mem) := by
  have same (x : Nat) (listed : x ∈ k.heap.index.entries k.mem) (apart : x ≠ hole.addr) :
      headerSize k'.mem x = headerSize k.mem x := by
    obtain ⟨d, member, -, rfl⟩ := wf.mem_entries.mp listed
    have after : d ∈ pre ++ (front ++ block :: rest) ++ post := by
      simp only [List.mem_append, List.mem_cons] at member ⊢
      rcases member with before | rfl | behind
      · exact Or.inl (Or.inl before)
      · exact absurd rfl apart
      · exact Or.inr behind
    rw [wf.headerSize_entry member, cut.wf.headerSize_entry after]
  have poised' := poised.congr wf.nodup same
  rw [cut.entries]
  apply sorted_foldr
  by_cases whole : front = []
  · rw [if_pos whole]
    exact poised'.others
  · rw [if_neg whole]
    obtain ⟨aligned, room, rfl⟩ := shape whole
    have length : headerSize k'.mem hole.addr = frontLength hole.addr :=
      cut.wf.headerSize_entry (show frontOf hole room ∈ _ by simp)
    have fits := poised'.front aligned
    rw [← length] at fits
    exact fits.sorted wf.nodup poised'.others

-- when nothing but the last hole may fit, the growth leaves it the only one
theorem Allocates.sorted_last (allocates : Allocates size pageAlign k cs block k' cs')
    (wf : WellFormed tagged k cs)
    (last : ∃ pre last, cs = pre ++ [last] ∧ last.hole = true ∧ last.addr = a)
    (others : ∀ h ∈ k.heap.index.entries k.mem, h ≠ a →
      holeFits (size + 20) pageAlign k.mem h = false)
    (poised : Poised pageAlign k.mem (k.heap.index.entries k.mem) a) :
    (k'.heap.index.entries k'.mem).Pairwise (sizeLe k'.mem) := by
  induction allocates generalizing tagged with
  | @cut k k' pre post front rest hole block free fits whole shorter cut =>
    have here : hole.addr = a := by
      by_contra apart
      have refused := others _ (List.mem_of_find?_eq_some fits) apart
      rw [List.find?_some fits] at refused
      cases refused
    subst here
    exact cut.sorted wf (fun some_ => ⟨fun plain => some_ (whole plain), shorter some_⟩) poised
  | @grow k k1 k' cs cs' pre hole block none longer _ ih =>
    obtain ⟨xs, x, rfl, free, rfl⟩ := last
    obtain ⟨here, entries⟩ : hole.addr = x.addr ∧
        k1.heap.index.entries k1.mem = k.heap.index.entries k.mem := by
      rcases longer.source with ⟨-, full, -⟩ | ⟨y, same, -, start, -, entries⟩
      · have used := full x (List.mem_append_right _ (List.mem_singleton_self x))
        rw [free] at used
        cases used
      · rw [List.append_inj_right' same rfl |> List.singleton_inj.mp]
        exact ⟨start, entries⟩
    refine ih longer.wf ⟨pre, hole, rfl, longer.stretched.free, here⟩ ?_ ?_
    · intro h listed apart
      rw [← here] at apart
      obtain ⟨before, same⟩ := longer.other wf listed apart
      rw [holeFits_congr same]
      exact none h before
    · rw [entries]
      refine poised.congr wf.nodup ?_
      intro h listed apart
      rw [← here] at apart
      rw [← entries] at listed
      exact (longer.other wf listed apart).2

/-- What `alloc` must meet for it to leave the entries sorted: the front part does not overtake. -/
def AllocInPlace (size pageAlign : Nat) (k : Kernel) (cs : List Chunk) : Prop :=
  pageAlign ≠ 0 →
    (∀ h, FirstFits size pageAlign k h →
      FitsAt k.mem (k.heap.index.entries k.mem) h (frontLength h)) ∧
    (NoneFits size pageAlign k →
      FitsAt k.mem (k.heap.index.entries k.mem) (endAddr k cs) (frontLength (endAddr k cs)))

theorem Allocates.sorted (allocates : Allocates size pageAlign k cs block k' cs')
    (wf : WellFormed tagged k cs) (inPlace : AllocInPlace size pageAlign k cs)
    (sorted : (k.heap.index.entries k.mem).Pairwise (sizeLe k.mem)) :
    (k'.heap.index.entries k'.mem).Pairwise (sizeLe k'.mem) := by
  cases allocates with
  | cut free fits whole shorter cut =>
    exact cut.sorted wf (fun some_ => ⟨fun plain => some_ (whole plain), shorter some_⟩)
      ⟨sorted.sublist List.erase_sublist, fun aligned => (inPlace aligned).1 _ fits⟩
  | @grow _ k1 _ _ _ pre hole _ none longer later =>
    refine later.sorted_last longer.wf ⟨pre, hole, rfl, longer.stretched.free, rfl⟩ ?_ ?_
    · intro h listed apart
      obtain ⟨before, same⟩ := longer.other wf listed apart
      rw [holeFits_congr same]
      exact none h before
    · rcases longer.source with ⟨-, -, -, entries⟩ | ⟨last, rfl, free, start, -, entries⟩
      · rw [entries]
        constructor
        case others => simp
        case front =>
          intro _ xs ys split
          cases xs with
          | nil =>
            cases split
            simp
          | cons x xs => simp at split
      · have ends : endAddr k (pre ++ [last]) = hole.addr :=
          (endAddr_snoc k free).1.trans start.symm
        have here : Poised pageAlign k.mem (k.heap.index.entries k.mem) hole.addr :=
          ⟨sorted.sublist List.erase_sublist, fun aligned => ends ▸ (inPlace aligned).2 none⟩
        rw [entries]
        refine here.congr wf.nodup ?_
        intro h listed apart
        rw [← entries] at listed
        exact (longer.other wf listed apart).2

/-! ## `free` -/

/-- What `free` must meet: a hole to the left that gets longer overtakes no other entry. -/
def FreeInPlace (k : Kernel) (left : Option Chunk) (b : Chunk) (right : Option Chunk)
    (post : List Chunk) : Prop :=
  ∀ l ∈ left, FitsAt k.mem ((k.heap.index.entries k.mem).diff (right.toList.map Chunk.addr))
    l.addr (freedSize k left b right post)

theorem Frees.sorted (frees : Frees k pre left b right post k' hole)
    (wf : WellFormed tagged k (around pre left b right post)) (used : b.hole = false)
    (beside : Beside pre left right post) (after : WellFormed tagged k' (pre ++ [hole] ++ post))
    (inPlace : FreeInPlace k left b right post)
    (sorted : (k.heap.index.entries k.mem).Pairwise (sizeLe k.mem)) :
    (k'.heap.index.entries k'.mem).Pairwise (sizeLe k'.mem) := by
  have kept := entries_diff used beside.rightHole wf.entries
  have same (x : Nat)
      (listed : x ∈ (k.heap.index.entries k.mem).diff (right.toList.map Chunk.addr)) :
      (∃ l ∈ left, l.addr = x) ∨ headerSize k'.mem x = headerSize k.mem x := by
    obtain ⟨d, member, -, rfl⟩ := mem_holeAddrs.mp (kept.mem_iff.mp listed)
    simp only [List.mem_append, Option.mem_toList] at member
    have both (inOld : d ∈ around pre left b right post) (inNew : d ∈ pre ++ [hole] ++ post) :
        headerSize k'.mem d.addr = headerSize k.mem d.addr := by
      rw [wf.headerSize_entry inOld, after.headerSize_entry inNew]
    rcases member with (before | isLeft) | behind
    · exact Or.inr (both (by simp [around, before]) (by simp [before]))
    · exact Or.inl ⟨d, isLeft, rfl⟩
    · exact Or.inr (both (by simp [around, behind]) (by simp [behind]))
  have base := sorted.sublist (List.diff_sublist (k.heap.index.entries k.mem)
    (right.toList.map Chunk.addr))
  have nodup := wf.nodup.sublist (List.diff_sublist (k.heap.index.entries k.mem)
    (right.toList.map Chunk.addr))
  rw [frees.entries, relisted]
  cases left with
  | none =>
    refine sorted_orderedInsert (sorted_congr base ?_) _
    intro x listed
    exact (same x listed).resolve_left (by simp)
  | some l =>
    have here : hole.addr = l.addr := by
      rw [frees.start, mergedHole_addr]
      rfl
    have length : headerSize k'.mem l.addr = freedSize k (some l) b right post := by
      rw [← here, ← frees.size]
      exact after.headerSize_entry (by simp)
    have apart (x : Nat)
        (listed : x ∈ (k.heap.index.entries k.mem).diff (right.toList.map Chunk.addr))
        (other : x ≠ l.addr) : headerSize k'.mem x = headerSize k.mem x := by
      refine (same x listed).resolve_left ?_
      rintro ⟨d, isLeft, rfl⟩
      cases isLeft
      exact other rfl
    have fits := (inPlace l rfl).congr nodup apart
    rw [← length] at fits
    refine fits.sorted nodup (sorted_congr (base.sublist List.erase_sublist) ?_)
    intro x member
    obtain ⟨other, listed⟩ := nodup.mem_erase_iff.mp member
    exact apart x listed other

/-! ## Runs -/

namespace HeapState

variable {s s' : HeapState}

def Sorted (s : HeapState) : Prop :=
  (s.kernel.heap.index.entries s.kernel.mem).Pairwise (sizeLe s.kernel.mem)

/-- A call changes no size in the index so that the entry should be elsewhere. -/
def InPlace (s : HeapState) : HeapCall → Prop
  | .alloc size pageAlign => ∀ cs, Sound s.kernel cs →
      AllocInPlace size.toNat pageAlign.toNat s.kernel cs
  | .free p => ∀ pre left b right post, b.addr + sizeofHeader = p → b.hole = false →
      Beside pre left right post → Sound s.kernel (around pre left b right post) →
      FreeInPlace s.kernel left b right post

-- without page alignment, and when the heap need not grow, a least hole is taken
def BestFit (kmallocInt : Kmalloc) (s : HeapState) : Prop :=
  ∀ (size : UInt32) (s' : HeapState), s.Step kmallocInt (.alloc size 0) s' →
    (∃ h ∈ s.kernel.heap.index.entries s.kernel.mem,
      size.toNat + 20 ≤ headerSize s.kernel.mem h) →
    ∃ h ∈ s.kernel.heap.index.entries s.kernel.mem, s'.live = (h + sizeofHeader) :: s.live ∧
      size.toNat + 20 ≤ headerSize s.kernel.mem h ∧
      ∀ g ∈ s.kernel.heap.index.entries s.kernel.mem,
        size.toNat + 20 ≤ headerSize s.kernel.mem g →
          headerSize s.kernel.mem h ≤ headerSize s.kernel.mem g

theorem Holds.sorted_step (holds : s.Holds cs) (sorted : s.Sorted) {c : HeapCall}
    (calm : s.Calm c) (inPlace : s.InPlace c) (step : s.Step kmallocInt c s') : s'.Sorted := by
  cases c with
  | alloc size pageAlign =>
    obtain ⟨block, cs', -, after, allocates⟩ := holds.alloc calm step
    exact allocates.sorted holds.sound.wf (inPlace cs holds.sound) sorted
  | free p =>
    obtain ⟨pre, left, b, right, post, hole, rfl, used, ptr, beside, -, after, frees⟩ :=
      holds.free calm step
    have wf : WellFormed (fun _ => False) s'.kernel (pre ++ [hole] ++ post) :=
      after.sound.wf.retag fun _ _ => False.elim
    exact frees.sorted (holds.sound.wf.retag fun _ _ => False.elim) used beside wf
      (inPlace pre left b right post ptr used beside holds.sound) sorted

-- the first entry that is large enough is the least of them
theorem Sorted.least (sorted : s.Sorted) {size h g : Nat} (first : FirstFits size 0 s.kernel h)
    (listed : g ∈ s.kernel.heap.index.entries s.kernel.mem)
    (enough : size + 20 ≤ headerSize s.kernel.mem g) :
    headerSize s.kernel.mem h ≤ headerSize s.kernel.mem g := by
  obtain ⟨-, before, behind, split, earlier⟩ := List.find?_eq_some_iff_append.mp first
  unfold Sorted at sorted
  rw [split] at sorted listed
  rcases List.mem_append.mp listed with inFront | here
  · have refused := earlier g inFront
    simp only [holeFits, gt_iff_lt, Nat.lt_irrefl, if_false, Bool.not_eq_true',
      decide_eq_false_iff_not] at refused
    exact absurd enough refused
  · rcases List.mem_cons.mp here with rfl | later
    · exact Nat.le_refl _
    · exact (List.pairwise_cons.mp (List.pairwise_append.mp sorted).2.1).1 g later

theorem Holds.bestFit (holds : s.Holds cs) (sorted : s.Sorted) (kmallocInt : Kmalloc) :
    s.BestFit kmallocInt := by
  rintro size s' ⟨-, fuel, result⟩ ⟨g, listed, enough⟩
  have word : headerSize s.kernel.mem g < 4294967296 := read32_lt _ _
  have few := holds.sound.wf.index_lt_noHole
  obtain ⟨h, first⟩ := (noneFits_or size.toNat 0 s.kernel).resolve_left fun none => by
    have refused := none g listed
    simp only [holeFits, gt_iff_lt, Nat.lt_irrefl, if_false, decide_eq_false_iff_not] at refused
    exact refused enough
  have inIndex := List.mem_of_find?_eq_some first
  have fits := List.find?_some first
  cases fuel with
  | zero => cases result
  | succ fuel =>
    obtain ⟨iterator, within, position, -, taken⟩ := alloc_takes kmallocInt fuel few
      (show size.toNat + 20 < 4294967296 by omega) ⟨h, inIndex, fits⟩
    change (GekonOS.alloc kmallocInt (fuel + 1) size.toNat 0 s.kernel >>= _) = _ at result
    rw [taken] at result
    cases placed : takeHole size.toNat (size.toNat + 20) 0 iterator s.kernel with
    | error halt =>
      rw [placed] at result
      cases result
    | ok answer =>
      rw [placed] at result
      cases result
      have ptr := takeHole_ptr within (by unfold noHole at few; omega) (fun both => both.1 rfl)
        placed
      obtain ⟨c, member, -, start⟩ := holds.sound.wf.mem_entries.mp inIndex
      have bounds := holds.sound.wf.layout.bounds member
      have room := c.room
      have small := holds.sound.wf.small
      rw [first.slot_eq within position, sizeofHeader, Word32.add_of_lt (by omega)] at ptr
      simp only [holeFits, gt_iff_lt, Nat.lt_irrefl, if_false, decide_eq_true_eq] at fits
      exact ⟨h, inIndex, congrArg (· :: s.live) ptr, fits, fun g => sorted.least first⟩

end HeapState

open HeapState in
/--
In every run whose calls all meet the condition and change no size out of its place, the index is
sorted by size, and what is served from it without page alignment is a least hole that fits.
-/
theorem best_fit (kmallocInt : Kmalloc) {k0 k : Kernel} (fresh : Created k0 k)
    {calls : List HeapCall} {s : HeapState}
    (run : Run (Guarded (fun s c => s.Calm c ∧ s.InPlace c) (Step kmallocInt))
      { kernel := k, live := [] } calls s) :
    s.Sorted ∧ s.BestFit kmallocInt := by
  obtain ⟨cs, holds, sorted⟩ : ∃ cs, s.Holds cs ∧ s.Sorted := by
    refine run.invariant (I := fun s => ∃ cs, s.Holds cs ∧ s.Sorted) ⟨_, fresh.holds, ?_⟩ ?_
    · have listed := fresh.holds.sound.wf.entries
      rw [holeAddrs_cons_hole rfl, holeAddrs_nil, List.perm_singleton] at listed
      unfold Sorted
      rw [listed]
      exact List.pairwise_singleton _ _
    · rintro s c s' ⟨cs, holds, sorted⟩ ⟨⟨calm, inPlace⟩, step⟩
      obtain ⟨cs', after⟩ := holds.step calm step
      exact ⟨cs', after, holds.sorted_step sorted calm inPlace step⟩
  exact ⟨sorted, holds.bestFit sorted kmallocInt⟩

namespace HeapState

/-- Two blocks are asked for and the first is freed: it becomes the first entry of the index. -/
theorem best_fit_first : ∃ k s, Run (Guarded (fun s c => s.Calm c ∧ s.InPlace c)
    (Step (GekonOS.kmallocInt 0))) { kernel := k, live := [] }
      [.alloc 8 0, .alloc 8 0, .free 0x0108100C] s ∧
    (s.kernel.heap.index.entries s.kernel.mem).map (headerSize s.kernel.mem) = [28, 0x7EFC8] ∧
    (s.Sorted ∧ s.BestFit (GekonOS.kmallocInt 0)) := by
  obtain ⟨k, s1, s2, s3, fresh, step1, step2, step3, -, -, two, sizes⟩ := three_calls
  have plain (s : HeapState) : s.InPlace (.alloc 8 0) := fun _ _ aligned => absurd rfl aligned
  have first : s2.InPlace (.free 0x0108100C) := by
    intro pre left b right post ptr used beside sound l isLeft
    obtain rfl := two.noLeft ptr used sound
    cases isLeft
  have both {s s' : HeapState} {c : HeapCall} (inPlace : s.InPlace c)
      (step : Guarded Calm (Step (GekonOS.kmallocInt 0)) s c s') :
      Guarded (fun s c => s.Calm c ∧ s.InPlace c) (Step (GekonOS.kmallocInt 0)) s c s' :=
    ⟨⟨step.1, inPlace⟩, step.2⟩
  have run := ((Run.nil.snoc (both (plain _) step1)).snoc (both (plain _) step2)).snoc
    (both first step3)
  exact ⟨k, s3, run, sizes, best_fit (GekonOS.kmallocInt 0) fresh run⟩

set_option maxRecDepth 100000 in
/-- The front part that the second call leaves is shorter than the one in front of it. -/
theorem front_parts_unsorted : ∃ k0 k calls s, Created k0 k ∧
    Run (Step (GekonOS.kmallocInt 0)) { kernel := k, live := [] } calls s ∧ ¬ s.Sorted := by
  have seen : observe [.alloc 8 1, .alloc 8 1] (fun s =>
      (s.kernel.heap.index.entries s.kernel.mem).map (headerSize s.kernel.mem)) =
        some [4084, 4068, 0x7CFF0] := by
    decide +kernel
  obtain ⟨k, s, fresh, run, sizes⟩ := observe_run seen
  refine ⟨mappedKernel, k, _, s, fresh, run, ?_⟩
  intro sorted
  have ordered : ((s.kernel.heap.index.entries s.kernel.mem).map
      (headerSize s.kernel.mem)).Pairwise (· ≤ ·) := List.pairwise_map.mpr sorted
  rw [sizes] at ordered
  exact absurd ordered (by decide)

end HeapState

end GekonOS
