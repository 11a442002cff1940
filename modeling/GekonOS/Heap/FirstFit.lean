import GekonOS.Heap.Search

set_option autoImplicit false

namespace GekonOS

open ByteMemory Loop

/-- `n` is the first position below `bound` where `p` holds, or `bound` when there is none. -/
def IsFirst (p : Nat → Prop) (bound n : Nat) : Prop :=
  n ≤ bound ∧ (∀ i < n, ¬ p i) ∧ (n < bound → p n)

theorem IsFirst.iff {p q : Nat → Prop} {bound n : Nat} (first : IsFirst p bound n) :
    IsFirst q bound n ↔ ∀ i < bound, ¬ (p i ↔ q i) → ∃ j < i, p j ∧ q j := by
  obtain ⟨within, before, stop⟩ := first
  constructor
  · rintro ⟨-, before', stop'⟩ i lower differ
    cases lt_trichotomy i n with
    | inl earlier =>
      exact absurd ⟨fun h => absurd h (before i earlier), fun h => absurd h (before' i earlier)⟩
        differ
    | inr rest =>
      cases rest with
      | inl here =>
        subst here
        exact absurd ⟨fun _ => stop' lower, fun _ => stop lower⟩ differ
      | inr later => exact ⟨n, later, stop (by omega), stop' (by omega)⟩
  · intro masked
    refine ⟨within, ?_, ?_⟩
    -- the first place where `q` holds is a disagreement with nothing in front of it
    · intro i lower holds
      have least : ∃ i, i < n ∧ q i := ⟨i, lower, holds⟩
      classical
      obtain ⟨below, here⟩ := Nat.find_spec least
      obtain ⟨j, earlier, -, also⟩ := masked (Nat.find least) (by omega)
        fun same => before _ below (same.mpr here)
      exact Nat.find_min least earlier ⟨by omega, also⟩
    · intro inside
      by_contra fails
      obtain ⟨j, earlier, holds, -⟩ := masked n inside fun same => fails (same.mp (stop inside))
      exact before j earlier holds

/-- The hole with header `h` has room for a chunk of `size` bytes, with an aligned payload. -/
def CanHold (size pageAlign : Nat) (m : Mem) (h : Nat) : Prop :=
  if pageAlign > 0 then
    ∃ c, h ≤ c ∧ c + size ≤ h + headerSize m h ∧ (c + sizeofHeader) % pageSize = 0
  else size ≤ headerSize m h

/-- What `find_smallest_hole` shall return. -/
structure FindsFirst (size pageAlign : Nat) (heap : Heap) (m : Mem) (r : Nat) : Prop where
  missing : r = noHole ↔ ∀ i < heap.index.size, ¬ CanHold size pageAlign m (heap.index.slot m i)
  first : r ≠ noHole → r < heap.index.size ∧ CanHold size pageAlign m (heap.index.slot m r) ∧
    ∀ i < r, ¬ CanHold size pageAlign m (heap.index.slot m i)

-- from a header to the next one with an aligned payload
def distance (h : Nat) : Nat := (4096 - (h + 12) % 4096) % 4096

-- what the code skips: a page from an aligned payload on, and nothing in the first page
def skipped (h : Nat) : Nat :=
  if (h + 12) % 4294967296 < 4096 then 0 else 4096 - (h + 12) % 4096

theorem canHold_aligned {size pageAlign : Nat} {m : Mem} {h : Nat} (aligned : pageAlign ≠ 0) :
    CanHold size pageAlign m h ↔ distance h + size ≤ headerSize m h := by
  unfold CanHold distance sizeofHeader pageSize
  rw [if_pos (Nat.pos_of_ne_zero aligned)]
  constructor
  · rintro ⟨c, lower, upper, onPage⟩
    omega
  · intro enough
    exact ⟨h + (4096 - (h + 12) % 4096) % 4096, by omega, by omega, by omega⟩

theorem skipped_le (h : Nat) : skipped h ≤ 4096 := by
  unfold skipped
  split <;> omega

theorem holeFits_aligned {size pageAlign : Nat} {m : Mem} {h : Nat} (aligned : pageAlign ≠ 0) :
    holeFits size pageAlign m h = true ↔
      asLong size ≤ asLong (Word32.sub (headerSize m h) (skipped h)) := by
  have masked := Word32.and_page_mask (Word32.add_lt h 12)
  have inPage : Word32.add h 12 % 4096 = (h + 12) % 4096 := by
    unfold Word32.add
    omega
  have offset : (if Word32.add h 12 &&& 0xFFFFF000 ≠ 0 then 4096 - Word32.add h 12 % 4096 else 0) =
      skipped h := by
    unfold skipped
    rw [masked, inPage]
    unfold Word32.add
    split <;> split <;> omega
  unfold holeFits sizeofHeader pageSize
  simp only [gt_iff_lt, Nat.pos_of_ne_zero aligned, if_true, offset, ge_iff_le, decide_eq_true_eq]

theorem holeFits_small {size pageAlign : Nat} {m : Mem} {h : Nat} (aligned : pageAlign ≠ 0)
    (small : size < 2147483648) :
    holeFits size pageAlign m h = true ↔
      size + skipped h ≤ headerSize m h ∧ headerSize m h < 2147483648 + skipped h := by
  have word : headerSize m h < 4294967296 := read32_lt _ _
  have skip := skipped_le h
  rw [holeFits_aligned aligned]
  unfold asLong
  rw [if_pos small]
  by_cases enough : skipped h ≤ headerSize m h
  · rw [Word32.sub_of_le enough word]
    split <;> omega
  · have wrapped : Word32.sub (headerSize m h) (skipped h) =
        headerSize m h + 4294967296 - skipped h := by
      unfold Word32.sub
      omega
    rw [wrapped]
    split <;> omega

theorem holeFits_large {size pageAlign : Nat} {m : Mem} {h : Nat} (aligned : pageAlign ≠ 0)
    (large : 2147483648 ≤ size) (word : size < 4294967296) :
    holeFits size pageAlign m h = true ↔
      if headerSize m h < 2147483648 + skipped h then
        size + skipped h ≤ headerSize m h + 4294967296
      else size + skipped h ≤ headerSize m h := by
  have word' : headerSize m h < 4294967296 := read32_lt _ _
  have skip := skipped_le h
  rw [holeFits_aligned aligned]
  unfold asLong
  rw [if_neg (Nat.not_lt.mpr large)]
  by_cases enough : skipped h ≤ headerSize m h
  · rw [Word32.sub_of_le enough word']
    split <;> split <;> omega
  · have wrapped : Word32.sub (headerSize m h) (skipped h) =
        headerSize m h + 4294967296 - skipped h := by
      unfold Word32.sub
      omega
    rw [wrapped]
    split <;> split <;> omega

/--
The holes that the aligned test gets wrong. One ends too soon for the page that is skipped from a
payload that is aligned already, or for the distance that is not skipped in the first page; or one
of the sizes that are compared has its sign bit set and the other has not.
-/
def Misjudged (size h holeSize : Nat) : Prop :=
  (size < 2147483648 ↔ holeSize < 2147483648 + skipped h) ∧ size ≤ holeSize ∧
      ((h + 12) % 4096 = 0 ∧ 4096 ≤ (h + 12) % 4294967296 ∧ holeSize < size + 4096 ∨
        (h + 12) % 4294967296 < 4096 ∧ holeSize < distance h + size) ∨
    size < 2147483648 ∧ 2147483648 + skipped h ≤ holeSize ∧ distance h + size ≤ holeSize ∨
    2147483648 ≤ size ∧ holeSize < 2147483648 + skipped h ∧ holeSize < distance h + size ∧
      size + skipped h ≤ holeSize + 4294967296

theorem misjudged_iff {size pageAlign : Nat} {m : Mem} {h : Nat} (aligned : pageAlign ≠ 0)
    (word : size < 4294967296) :
    ¬ (holeFits size pageAlign m h = true ↔ CanHold size pageAlign m h) ↔
      Misjudged size h (headerSize m h) := by
  have word' : headerSize m h < 4294967296 := read32_lt _ _
  rw [canHold_aligned aligned]
  by_cases low : size < 2147483648
  · rw [holeFits_small aligned low]
    obtain ⟨holeSize, known⟩ : ∃ n, headerSize m h = n := ⟨_, rfl⟩
    rw [known] at word' ⊢
    unfold Misjudged skipped distance
    split <;> omega
  · rw [holeFits_large aligned (by omega) word]
    obtain ⟨holeSize, known⟩ : ∃ n, headerSize m h = n := ⟨_, rfl⟩
    rw [known] at word' ⊢
    unfold Misjudged distance
    by_cases first : (h + 12) % 4294967296 < 4096
    · have none : skipped h = 0 := if_pos first
      rw [none]
      split <;> omega
    · have page : skipped h = 4096 - (h + 12) % 4096 := if_neg first
      rw [page]
      split <;> omega

variable {index : OrderedArray} {m : Mem}

theorem findIdx_isFirst (index : OrderedArray) (m : Mem) (p : Nat → Bool) :
    IsFirst (fun i => p (index.slot m i) = true) index.size
      ((index.entries m).findIdx p) := by
  have length : (index.entries m).length = index.size := OrderedArray.length_entries
  refine ⟨length ▸ List.findIdx_le_length, ?_, ?_⟩
  · intro i lower
    have := List.not_of_lt_findIdx lower
    simpa using this
  · intro within
    have := List.findIdx_getElem (w := length.symm ▸ within)
    simpa using this

theorem findSmallestHole_isFirst (size pageAlign : Nat) (heap : Heap) (m : Mem) :
    ∃ n, IsFirst (fun i => holeFits size pageAlign m (heap.index.slot m i) = true)
        heap.index.size n ∧
      findSmallestHole size pageAlign heap m =
        .ok (if n = heap.index.size then noHole else n) := by
  refine ⟨_, findIdx_isFirst heap.index m (holeFits size pageAlign m), ?_⟩
  by_cases fits : ∃ h ∈ heap.index.entries m, holeFits size pageAlign m h = true
  · have within := List.findIdx_lt_length_of_exists fits
    rw [OrderedArray.length_entries] at within
    rw [findSmallestHole_found fits, if_neg (Nat.ne_of_lt within)]
  · have none (h : Nat) (member : h ∈ heap.index.entries m) :
        holeFits size pageAlign m h = false :=
      Bool.eq_false_iff.mpr fun yes => fits ⟨h, member, yes⟩
    have stop := List.findIdx_eq_length_of_false none
    rw [OrderedArray.length_entries] at stop
    rw [findSmallestHole_missing none, if_pos stop]

theorem findsFirst_iff {size pageAlign : Nat} {heap : Heap} {m : Mem} {n : Nat}
    (room : 4 * heap.index.size ≤ 4294967296) (within : n ≤ heap.index.size) :
    FindsFirst size pageAlign heap m (if n = heap.index.size then noHole else n) ↔
      IsFirst (fun i => CanHold size pageAlign m (heap.index.slot m i)) heap.index.size n := by
  by_cases last : n = heap.index.size
  · rw [if_pos last]
    constructor
    · intro finds
      exact ⟨within, fun i lower => finds.missing.mp rfl i (by omega), fun less => by omega⟩
    · rintro ⟨-, before, -⟩
      exact ⟨⟨fun _ i lower => before i (by omega), fun _ => rfl⟩, fun apart => absurd rfl apart⟩
  · have found : n ≠ noHole := by
      unfold noHole
      omega
    rw [if_neg last]
    constructor
    · intro finds
      obtain ⟨-, here, before⟩ := finds.first found
      exact ⟨within, before, fun _ => here⟩
    · rintro ⟨-, before, stop⟩
      refine ⟨⟨fun same => absurd same found, fun none => ?_⟩, fun _ => ?_⟩
      · exact absurd (stop (by omega)) (none n (by omega))
      · exact ⟨by omega, stop (by omega), before⟩

/--
`find_smallest_hole` returns, and what it returns is the first hole that can hold the chunk if and
only if in aligned mode each hole it gets wrong comes behind one that fits and that it gets right.
-/
theorem findSmallestHole_iff (size pageAlign : Nat) (heap : Heap) (m : Mem)
    (word : size < 4294967296) (room : 4 * heap.index.size ≤ 4294967296) :
    ∃ r, findSmallestHole size pageAlign heap m = .ok r ∧
      (FindsFirst size pageAlign heap m r ↔ pageAlign = 0 ∨ ∀ i < heap.index.size,
        Misjudged size (heap.index.slot m i) (headerSize m (heap.index.slot m i)) →
          ∃ j < i, CanHold size pageAlign m (heap.index.slot m j) ∧
            ¬ Misjudged size (heap.index.slot m j) (headerSize m (heap.index.slot m j))) := by
  obtain ⟨n, first, result⟩ := findSmallestHole_isFirst size pageAlign heap m
  refine ⟨_, result, ?_⟩
  rw [findsFirst_iff room first.1, first.iff]
  by_cases plain : pageAlign = 0
  · refine ⟨fun _ => Or.inl plain, fun _ i lower differ => absurd ?_ differ⟩
    simp [holeFits, CanHold, plain]
  · have judged (i : Nat) := misjudged_iff (m := m) (h := heap.index.slot m i) plain word
    constructor
    · intro masked
      refine Or.inr fun i lower wrong => ?_
      obtain ⟨j, earlier, taken, holds⟩ := masked i lower ((judged i).mpr wrong)
      exact ⟨j, earlier, holds, fun bad => (judged j).mpr bad ⟨fun _ => holds, fun _ => taken⟩⟩
    · rintro (zero | masked) i lower differ
      · exact absurd zero plain
      · obtain ⟨j, earlier, holds, right⟩ := masked i lower ((judged i).mp differ)
        refine ⟨j, earlier, ?_, holds⟩
        by_contra refused
        exact right ((judged j).mp fun same => refused (same.mpr holds))

-- the payload behind this header is on a page boundary, and the hole has room for 100 bytes
def alignedHeap : Heap :=
  { index := { array := 0x8000, size := 1, maxSize := 4, lessThan := some headerTLessThan },
    startAddress := 0x2FF4, endAddress := 0x3058, maxAddress := 0x4000, supervisor := 0,
    readonly := 0 }

def alignedMem : Mem := write32 (setHeaderSize (fun _ => 0) 0x2FF4 100) 0x8000 0x2FF4

theorem findSmallestHole_iff_apart : ∃ r, findSmallestHole 101 1 alignedHeap alignedMem = .ok r ∧
    FindsFirst 101 1 alignedHeap alignedMem r := by
  obtain ⟨r, result, finds⟩ := findSmallestHole_iff 101 1 alignedHeap alignedMem (by decide)
    (show 4 * 1 ≤ 4294967296 by decide)
  refine ⟨r, result, finds.mpr (Or.inr fun i lower wrong => ?_)⟩
  obtain rfl : i = 0 := Nat.lt_one_iff.mp lower
  have size : headerSize alignedMem (alignedHeap.index.slot alignedMem 0) = 100 := by
    decide +kernel
  rw [size] at wrong
  unfold Misjudged at wrong
  omega

/-- A hole whose payload is aligned already is not found. -/
theorem aligned_hole_refused : findSmallestHole 100 1 alignedHeap alignedMem = .ok noHole ∧
    ¬ FindsFirst 100 1 alignedHeap alignedMem noHole := by
  constructor
  · decide +kernel
  · intro finds
    refine finds.missing.mp rfl 0 (show 0 < 1 by decide) ((canHold_aligned (by decide)).mpr ?_)
    decide +kernel

end GekonOS
