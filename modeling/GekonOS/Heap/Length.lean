import GekonOS.Heap.Resize
import GekonOS.Kernel.Mm

set_option autoImplicit false

namespace GekonOS

open Loop

/-- The list holds the pages of `[lo, hi)`, each once. -/
def ExactlyPages (pages : List Nat) (lo hi : Nat) : Prop :=
  pages.Nodup ∧ ∀ page, page ∈ pages ↔ ∃ a, lo ≤ a ∧ a < hi ∧ a / 4096 = page

theorem exactlyPages_up {lo hi : Nat} (aligned : hi % 4096 = 0) :
    ExactlyPages ((List.range ((hi - lo + 4095) / 4096)).map fun j => (lo + 4096 * j) / 4096)
      lo hi := by
  constructor
  · refine List.Nodup.map ?_ List.nodup_range
    intro i j same
    simp only at same
    omega
  · intro page
    simp only [List.mem_map, List.mem_range]
    constructor
    · rintro ⟨j, more, rfl⟩
      exact ⟨lo + 4096 * j, by omega, by omega, rfl⟩
    · rintro ⟨a, lower, upper, rfl⟩
      exact ⟨a / 4096 - lo / 4096, by omega, by omega⟩

variable {kmallocInt : Kmalloc} {k k' : Kernel} {newSize : Nat}

/-- What `expand` shall do. -/
structure Expanded (kmallocInt : Kmalloc) (newSize : Nat) (k k' : Kernel) : Prop where
  start : k'.heap.startAddress = k.heap.startAddress
  length : IsLeast {n | 4096 ∣ n ∧ newSize ≤ n} (k'.heap.endAddress - k'.heap.startAddress)
  grows : k.heap.endAddress ≤ k'.heap.endAddress
  within : k'.heap.endAddress ≤ k.heap.maxAddress
  pages : ExactlyPages (expandCalls kmallocInt (pageRounded newSize)
    (Word32.sub k.heap.endAddress k.heap.startAddress) k) k.heap.endAddress k'.heap.endAddress

theorem Expanded.rounds (done : Expanded kmallocInt newSize k k')
    (result : expand kmallocInt newSize k = .ok k')
    (le : k.heap.startAddress ≤ k.heap.endAddress) (small : k.heap.endAddress < 4294967296)
    (word : newSize < 4294967296) :
    4096 ≤ newSize ∧ newSize % 4096 ≠ 0 ∧
      k.heap.startAddress + expandedLength newSize < 4294967296 := by
  obtain ⟨larger, -, i, k1, -, rfl⟩ := expand_returns result le small
  have start : k1.heap.startAddress = k.heap.startAddress := done.start
  have length := done.length
  have grows := done.grows
  change k.heap.endAddress ≤ Word32.add k1.heap.startAddress (pageRounded newSize) at grows
  change IsLeast _ (Word32.add k1.heap.startAddress (pageRounded newSize) - k1.heap.startAddress)
    at length
  rw [start, pageRounded_eq word] at length grows
  obtain ⟨⟨multiple, covers⟩, least⟩ := length
  have atMost (n : Nat) (also : 4096 ∣ n) (enough : newSize ≤ n) :
      Word32.add k.heap.startAddress (expandedLength newSize % 4294967296) -
        k.heap.startAddress ≤ n := least ⟨also, enough⟩
  unfold Word32.add at multiple covers grows atMost
  unfold expandedLength at *
  by_cases low : newSize < 4096
  · rw [if_pos low] at *
    omega
  · rw [if_neg low] at *
    refine ⟨Nat.le_of_not_lt low, ?_, ?_⟩
    · intro exact_
      have := atMost newSize (Nat.dvd_of_mod_eq_zero exact_) (Nat.le_refl _)
      omega
    · omega

/--
An `expand` that returns has grown the heap to the least page multiple if and only if the new size
is above a page, not a page multiple itself, and its rounding does not pass the last address.
-/
theorem expand_rounds_iff (kmallocInt : Kmalloc) (newSize : Nat) (k k' : Kernel)
    (aligned : k.heap.startAddress % 4096 = 0) (le : k.heap.startAddress ≤ k.heap.endAddress)
    (bound : k.heap.endAddress ≤ k.heap.maxAddress) (limit : k.heap.maxAddress < 4294967296)
    (word : newSize < 4294967296) (mapped : Mapped k k.heap.maxAddress)
    (result : expand kmallocInt newSize k = .ok k') :
    Expanded kmallocInt newSize k k' ↔ 4096 ≤ newSize ∧ newSize % 4096 ≠ 0 ∧
      k.heap.startAddress + expandedLength newSize < 4294967296 := by
  have small : k.heap.endAddress < 4294967296 := by omega
  constructor
  · exact fun done => done.rounds result le small word
  · rintro ⟨page, inside, noWrap⟩
    obtain ⟨larger, fits, i, k1, looped, rfl⟩ := expand_returns result le small
    have rounded : pageRounded newSize = expandedLength newSize := pageRounded_of_lt (by omega)
    have length : expandedLength newSize = 4096 * (newSize / 4096) + 4096 := by
      rw [expandedLength, if_neg (by omega)]
    rw [rounded, Word32.add_of_lt noWrap] at fits
    rw [rounded] at looped
    obtain ⟨i', k2, looped', only, calls⟩ : ∃ i' k2, expandPages kmallocInt
        (expandedLength newSize) (k.heap.endAddress - k.heap.startAddress) k = .ok (i', k2) ∧
        PagesOnly k k2 ∧ _ :=
      expandPages_correct (fun a lower upper => mapped a lower (by omega)) noWrap (by omega)
    rw [looped'] at looped
    obtain ⟨rfl, rfl⟩ := Prod.mk.inj (Except.ok.inj looped)
    have stop : Word32.add k2.heap.startAddress (pageRounded newSize) =
        k.heap.startAddress + expandedLength newSize := by
      rw [only.heap, rounded, Word32.add_of_lt noWrap]
    have start : k2.heap.startAddress = k.heap.startAddress := by rw [only.heap]
    constructor
    case start => exact start
    case length =>
      change IsLeast _ (Word32.add k2.heap.startAddress (pageRounded newSize) -
        k2.heap.startAddress)
      rw [stop, start, Nat.add_sub_cancel_left]
      refine ⟨⟨by omega, by omega⟩, ?_⟩
      rintro n ⟨multiple, enough⟩
      omega
    case grows =>
      change _ ≤ Word32.add k2.heap.startAddress (pageRounded newSize)
      omega
    case within =>
      change Word32.add k2.heap.startAddress (pageRounded newSize) ≤ _
      omega
    case pages =>
      change ExactlyPages _ _ (Word32.add k2.heap.startAddress (pageRounded newSize))
      have rounds : expandedLength newSize - (k.heap.endAddress - k.heap.startAddress) =
          k.heap.startAddress + expandedLength newSize - k.heap.endAddress := by omega
      have first : k.heap.startAddress + (k.heap.endAddress - k.heap.startAddress) =
          k.heap.endAddress := by omega
      rw [stop, rounded, Word32.sub_of_le le small, calls, rounds, first]
      exact exactlyPages_up (by omega)

-- a heap area at 1 MB that may grow to 2 MB, with all its page tables
def areaKernel (length : Nat) : Kernel :=
  { Kernel.boot with
    heap := { index := { array := 4096, size := 0, maxSize := 3, lessThan := none },
              startAddress := 0x100000, endAddress := 0x100000 + length, maxAddress := 0x200000,
              supervisor := 0, readonly := 0 }
    directory := { tablesPhysical := fun _ => 7, tables := fun _ => 4096, physicalAddr := 0 } }

theorem areaKernel_mapped (length limit : Nat) : Mapped (areaKernel length) limit :=
  fun _ _ _ => show 7 &&& 1 ≠ 0 ∧ 4096 ≠ 0 by decide

theorem areaKernel_expands (newSize : Nat) (grows : 0x1000 < newSize)
    (fits : expandedLength newSize ≤ 0x100000) :
    ∃ k', expand (GekonOS.kmallocInt 0) newSize (areaKernel 0x1000) = .ok k' ∧
      k'.heap.startAddress = 0x100000 ∧
      k'.heap.endAddress = 0x100000 + expandedLength newSize := by
  obtain ⟨k1, only, result⟩ := expand_correct (k := areaKernel 0x1000) (GekonOS.kmallocInt 0)
    (show 0x100000 + 0x1000 - 0x100000 < newSize by omega)
    (show 0x100000 + expandedLength newSize ≤ 0x200000 by omega)
    (show 0x200000 < 4294967296 by decide) (by omega)
    (show 0x100000 ≤ 0x100000 + 0x1000 by decide)
    (show 0x100000 + 0x1000 < 4294967296 by decide) (areaKernel_mapped _ _)
  refine ⟨_, result, ?_, rfl⟩
  change k1.heap.startAddress = _
  rw [only.heap]
  rfl

theorem expand_rounds_iff_inside : ∃ k', expand (GekonOS.kmallocInt 0) 0x1800 (areaKernel 0x1000) =
    .ok k' ∧ Expanded (GekonOS.kmallocInt 0) 0x1800 (areaKernel 0x1000) k' := by
  obtain ⟨k', result, -⟩ := areaKernel_expands 0x1800 (by decide) (by decide)
  exact ⟨k', result, (expand_rounds_iff (GekonOS.kmallocInt 0) 0x1800 (areaKernel 0x1000) k' rfl
    (show 0x100000 ≤ 0x100000 + 0x1000 by decide) (show 0x100000 + 0x1000 ≤ 0x200000 by decide)
    (show 0x200000 < 4294967296 by decide) (by decide) (areaKernel_mapped _ _) result).mpr
    (by decide)⟩

/-- A size on a page boundary gets one page more. -/
theorem expand_boundary : ∃ k', expand (GekonOS.kmallocInt 0) 0x2000 (areaKernel 0x1000) = .ok k' ∧
    ¬ Expanded (GekonOS.kmallocInt 0) 0x2000 (areaKernel 0x1000) k' := by
  obtain ⟨k', result, start, stop⟩ := areaKernel_expands 0x2000 (by decide) (by decide)
  refine ⟨k', result, fun done => ?_⟩
  have least := done.length.2 (show 4096 ∣ 0x2000 ∧ 0x2000 ≤ 0x2000 by decide)
  rw [start, stop] at least
  exact absurd least (by decide)

/-- What `contract` shall do. -/
def Contracted (kmallocInt : Kmalloc) (newSize : Nat) (k : Kernel) : Prop :=
  ∃ newLength k', contract kmallocInt newSize k = .ok (newLength, k') ∧
    newLength = max heapMinSize (4096 * ((newSize + 4095) / 4096)) ∧
    k'.heap.startAddress = k.heap.startAddress ∧
    k'.heap.endAddress = k.heap.startAddress + newLength ∧
    ExactlyPages (contractCalls kmallocInt newLength
      (Word32.sub (Word32.sub k.heap.endAddress k.heap.startAddress) pageSize) k)
      k'.heap.endAddress k.heap.endAddress

/--
`contract` does so for no length but the least one, where there is nothing to contract. Else the
lowest page behind the new end keeps its frame.
-/
theorem contract_rounds_iff (kmallocInt : Kmalloc) (newSize : Nat) (k : Kernel)
    (aligned : k.heap.startAddress % 4096 = 0)
    (page : (k.heap.endAddress - k.heap.startAddress) % 4096 = 0)
    (least : heapMinSize ≤ k.heap.endAddress - k.heap.startAddress)
    (small : k.heap.endAddress < 4294967296) (mapped : Mapped k k.heap.endAddress)
    (shrinks : newSize < k.heap.endAddress - k.heap.startAddress) :
    Contracted kmallocInt newSize k ↔ k.heap.endAddress - k.heap.startAddress = heapMinSize := by
  have minimum : heapMinSize = 458752 := rfl
  obtain ⟨k1, only, contracted⟩ := contract_correct kmallocInt shrinks small least mapped
  have atLeast := le_contractedLength newSize
  have old : Word32.sub (Word32.sub k.heap.endAddress k.heap.startAddress) pageSize =
      k.heap.endAddress - k.heap.startAddress - 4096 := by
    rw [pageSize, Word32.sub_of_le (by omega) small, Word32.sub_of_le (by omega) (by omega)]
  obtain ⟨-, -, -, -, calls⟩ : ∃ i k1, contractPages kmallocInt (contractedLength newSize)
      (k.heap.endAddress - k.heap.startAddress - 4096) k = .ok (i, k1) ∧ PagesOnly k k1 ∧ _ :=
    contractPages_correct (fun a lower upper => mapped a lower (by omega)) (by omega) (by omega)
  constructor
  · rintro ⟨newLength, k', result, length, -, stop, pages⟩
    rw [contracted] at result
    obtain ⟨rfl, rfl⟩ := Prod.mk.inj (Except.ok.inj result)
    rw [stop, old, calls] at pages
    by_contra longer
    have below : contractedLength newSize < k.heap.endAddress - k.heap.startAddress := by
      unfold contractedLength
      split <;> omega
    -- the page at the new end
    have missed := (pages.2 ((k.heap.startAddress + contractedLength newSize) / 4096)).mpr
      ⟨_, Nat.le_refl _, by omega, rfl⟩
    simp only [List.mem_map, List.mem_range] at missed
    obtain ⟨j, more, same⟩ := missed
    omega
  · intro shortest
    have low : contractedLength newSize = heapMinSize := contractedLength_low (by omega)
    rw [low] at contracted calls
    refine ⟨heapMinSize, _, contracted, by omega, ?_, rfl, ?_⟩
    · change k1.heap.startAddress = _
      rw [only.heap]
    · rw [old, calls, shortest]
      refine ⟨by simp [heapMinSize], fun page => ?_⟩
      simp only [heapMinSize, Nat.reduceSub, Nat.reduceAdd, Nat.reduceDiv, List.range_zero,
        List.map_nil, List.not_mem_nil, false_iff, not_exists, not_and]
      intro a lower upper
      omega

theorem contract_rounds_iff_least : Contracted (GekonOS.kmallocInt 0) 0x1000 (areaKernel 0x70000) :=
  (contract_rounds_iff (GekonOS.kmallocInt 0) 0x1000 (areaKernel 0x70000) rfl rfl
    (show 0x70000 ≤ 0x100000 + 0x70000 - 0x100000 by decide)
    (show 0x100000 + 0x70000 < 4294967296 by decide) (areaKernel_mapped _ _)
    (show 0x1000 < 0x100000 + 0x70000 - 0x100000 by decide)).mpr rfl

/-- An odd page number takes the heap back to its least length, below the size asked for. -/
theorem contract_odd_page : ¬ Contracted (GekonOS.kmallocInt 0) 0x71000 (areaKernel 0x73000) := by
  rintro ⟨newLength, k', result, length, -⟩
  obtain ⟨k1, -, contracted⟩ := contract_correct (k := areaKernel 0x73000) (GekonOS.kmallocInt 0)
    (show 0x71000 < 0x100000 + 0x73000 - 0x100000 by decide)
    (show 0x100000 + 0x73000 < 4294967296 by decide)
    (show 0x70000 ≤ 0x100000 + 0x73000 - 0x100000 by decide) (areaKernel_mapped _ _)
  rw [result] at contracted
  have same : newLength = contractedLength 0x71000 := congrArg Prod.fst (Except.ok.inj contracted)
  rw [length] at same
  exact absurd same (by decide)

end GekonOS
