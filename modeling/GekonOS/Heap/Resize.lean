import GekonOS.Boot.Tables
import GekonOS.Frames.Bitmap

set_option autoImplicit false

namespace GekonOS

open Loop

-- where `expand` rounds a length to: the following page boundary, also from a boundary
def expandedLength (length : Nat) : Nat :=
  if length < 4096 then length else 4096 * (length / 4096) + 4096

-- where `contract` puts a length: an odd page number takes it back to the least length
def contractedLength (length : Nat) : Nat :=
  if length / 4096 % 2 = 1 then heapMinSize else max length heapMinSize

theorem le_expandedLength (length : Nat) : length ≤ expandedLength length := by
  unfold expandedLength
  split <;> omega

-- a length that is rounded is a page multiple, so the last step of a loop up to it cannot wrap
theorem expandedLength_top {length : Nat} (small : expandedLength length < 4294967296) :
    expandedLength length + 4095 < 4294967296 := by
  unfold expandedLength at small ⊢
  split at small
  next low =>
    rw [if_pos low]
    omega
  next high =>
    rw [if_neg high]
    omega

theorem contractedLength_le {length bound : Nat} (le : length ≤ bound) (least : heapMinSize ≤ bound) :
    contractedLength length ≤ bound := by
  unfold contractedLength
  split
  · exact least
  · exact max_le le least

theorem le_contractedLength (length : Nat) : heapMinSize ≤ contractedLength length := by
  unfold contractedLength
  split
  · exact Nat.le_refl _
  · exact le_max_right _ _

-- below the least length there is only one place to contract to
theorem contractedLength_low {length : Nat} (low : length ≤ heapMinSize) :
    contractedLength length = heapMinSize := by
  unfold contractedLength
  split
  · rfl
  · exact max_eq_right low

/-- The mapping of the heap area moves while the heap and its memory stay. -/
def PagesOnly (k k' : Kernel) : Prop :=
  ∃ frames pages, k' = { k with frames := frames, pages := pages }

theorem PagesOnly.refl (k : Kernel) : PagesOnly k k := ⟨k.frames, k.pages, rfl⟩

variable {k k' : Kernel}

theorem PagesOnly.allocFrame (only : PagesOnly k k') (page isKernel isWriteable : Nat) :
    PagesOnly k (allocFrame page isKernel isWriteable k').2 := by
  obtain ⟨frames, pages, rfl⟩ := only
  obtain ⟨frames', entry, result⟩ := allocFrame_entry page isKernel isWriteable
    { k with frames := frames, pages := pages }
  exact ⟨frames', Function.update pages page entry, result⟩

theorem PagesOnly.freeFrame (only : PagesOnly k k') (page : Nat) :
    PagesOnly k (freeFrame page k') := by
  obtain ⟨frames, pages, rfl⟩ := only
  obtain ⟨frames', entry, result⟩ := freeFrame_entry page { k with frames := frames, pages := pages }
  exact ⟨frames', Function.update pages page entry, result⟩

theorem PagesOnly.hasTable (only : PagesOnly k k') {page : Nat} :
    k'.HasTable page ↔ k.HasTable page := by
  obtain ⟨frames, pages, rfl⟩ := only
  rfl

theorem PagesOnly.heap (only : PagesOnly k k') : k'.heap = k.heap := by
  obtain ⟨frames, pages, rfl⟩ := only
  rfl

/-- Page tables are there for the heap area up to `limit`. -/
def Mapped (k : Kernel) (limit : Nat) : Prop :=
  ∀ a, k.heap.startAddress ≤ a → a < limit → k.HasTable (a / 4096)

theorem Mapped.congr {limit : Nat} (mapped : Mapped k limit)
    (start : k'.heap.startAddress = k.heap.startAddress) (same : k'.directory = k.directory) :
    Mapped k' limit := by
  intro a lower upper
  unfold Kernel.HasTable
  rw [same]
  exact mapped a (start ▸ lower) upper

variable {kmallocInt : Kmalloc}

-- one round of the loop of `expand`
def expandPage (kmallocInt : Kmalloc) (s : Nat × Kernel) : Except Halt (Nat × Kernel) := do
  let heap := s.2.heap
  let (page, k) ← getPage kmallocInt (Word32.add heap.startAddress s.1) s.2
  let (_, k) := allocFrame page (if heap.supervisor ≠ 0 then 1 else 0)
    (if heap.readonly ≠ 0 then 0 else 1) k
  pure (Word32.add s.1 pageSize, k)

-- and of the loop of `contract`
def contractPage (kmallocInt : Kmalloc) (s : Nat × Kernel) : Except Halt (Nat × Kernel) := do
  let (page, k) ← getPage kmallocInt (Word32.add s.2.heap.startAddress s.1) s.2
  pure (Word32.sub s.1 pageSize, freeFrame page k)

theorem expandPages_eq (kmallocInt : Kmalloc) (newSize i : Nat) (k : Kernel) :
    expandPages kmallocInt newSize i k = whileLoop .outOfFuel
      (fun s => .ok (decide (s.1 < newSize))) (expandPage kmallocInt) pageLoopFuel (i, k) := rfl

theorem contractPages_eq (kmallocInt : Kmalloc) (newSize i : Nat) (k : Kernel) :
    contractPages kmallocInt newSize i k = whileLoop .outOfFuel
      (fun s => .ok (decide (newSize < s.1))) (contractPage kmallocInt) pageLoopFuel (i, k) := rfl

-- the page a round asks `get_page` for
def pageOf (s : Nat × Kernel) : Nat := Word32.add s.2.heap.startAddress s.1 / 4096

/-- The pages that the loop of `expand` calls `alloc_frame` for, in order. -/
def expandCalls (kmallocInt : Kmalloc) (newSize i : Nat) (k : Kernel) : List Nat :=
  (visits (fun s => .ok (decide (s.1 < newSize))) (expandPage kmallocInt) pageLoopFuel
    (i, k)).map pageOf

/-- The pages that the loop of `contract` calls `free_frame` for, in order. -/
def contractCalls (kmallocInt : Kmalloc) (newSize i : Nat) (k : Kernel) : List Nat :=
  (visits (fun s => .ok (decide (newSize < s.1))) (contractPage kmallocInt) pageLoopFuel
    (i, k)).map pageOf

theorem expandPages_correct {newSize i : Nat} (mapped : Mapped k (k.heap.startAddress + newSize))
    (small : k.heap.startAddress + newSize < 4294967296) (top : newSize + 4095 < 4294967296) :
    ∃ i' k', expandPages kmallocInt newSize i k = .ok (i', k') ∧ PagesOnly k k' ∧
      expandCalls kmallocInt newSize i k = (List.range ((newSize - i + 4095) / 4096)).map
        fun j => (k.heap.startAddress + i + 4096 * j) / 4096 := by
  let Round (j : Nat) (s : Nat × Kernel) : Prop := s.1 = i + 4096 * j ∧ PagesOnly k s.2
  have page (j : Nat) (s : Nat × Kernel) (more : j < (newSize - i + 4095) / 4096)
      (round : Round j s) : Word32.add s.2.heap.startAddress s.1 =
        k.heap.startAddress + i + 4096 * j := by
    rw [round.1, round.2.heap, Word32.add_of_lt (by omega), Nat.add_assoc]
  obtain ⟨⟨i', k'⟩, result, ⟨-, only⟩, visited⟩ := whileLoop_counts Halt.outOfFuel
    (fun s : Nat × Kernel => .ok (decide (s.1 < newSize))) (expandPage kmallocInt) Round pageOf
    (fun j => (k.heap.startAddress + i + 4096 * j) / 4096) ((newSize - i + 4095) / 4096)
    (show Round 0 (i, k) from ⟨rfl, PagesOnly.refl k⟩) (Nat.zero_le _)
    (show (newSize - i + 4095) / 4096 - 0 < pageLoopFuel by unfold pageLoopFuel; omega)
    (by
      intro j s le round
      have here := round.1
      congr 1
      exact decide_eq_decide.mpr (by omega))
    (by
      intro j s more round
      have here := round.1
      have present : s.2.HasTable ((k.heap.startAddress + i + 4096 * j) / 4096) :=
        round.2.hasTable.mpr (mapped _ (by omega) (by omega))
      have next : Word32.add s.1 pageSize = i + 4096 * (j + 1) := by
        rw [pageSize, Word32.add_of_lt (by omega)]
        omega
      refine ⟨(i + 4096 * (j + 1), _), ?_, rfl, round.2.allocFrame
        (s.2.entryOf ((k.heap.startAddress + i + 4096 * j) / 4096))
        (if s.2.heap.supervisor ≠ 0 then 1 else 0) (if s.2.heap.readonly ≠ 0 then 0 else 1)⟩
      unfold expandPage
      simp only [page j s more round, getPage_present kmallocInt present, ok_bind, next]
      rfl)
    (by
      intro j s more round
      rw [pageOf, page j s more round])
  refine ⟨i', k', result, only, ?_⟩
  rw [expandCalls, visited, Nat.sub_zero, List.range_eq_range']

theorem contractPages_correct {newSize i : Nat} (mapped : Mapped k (k.heap.startAddress + i + 1))
    (small : k.heap.startAddress + i < 4294967296) (least : 4096 ≤ newSize) :
    ∃ i' k', contractPages kmallocInt newSize i k = .ok (i', k') ∧ PagesOnly k k' ∧
      contractCalls kmallocInt newSize i k = (List.range ((i - newSize + 4095) / 4096)).map
        fun j => (k.heap.startAddress + i - 4096 * j) / 4096 := by
  let Round (j : Nat) (s : Nat × Kernel) : Prop := s.1 + 4096 * j = i ∧ PagesOnly k s.2
  have page (j : Nat) (s : Nat × Kernel) (more : j < (i - newSize + 4095) / 4096)
      (round : Round j s) : Word32.add s.2.heap.startAddress s.1 =
        k.heap.startAddress + i - 4096 * j := by
    have here := round.1
    rw [round.2.heap, Word32.add_of_lt (by omega)]
    omega
  obtain ⟨⟨i', k'⟩, result, ⟨-, only⟩, visited⟩ := whileLoop_counts Halt.outOfFuel
    (fun s : Nat × Kernel => .ok (decide (newSize < s.1))) (contractPage kmallocInt) Round pageOf
    (fun j => (k.heap.startAddress + i - 4096 * j) / 4096) ((i - newSize + 4095) / 4096)
    (show Round 0 (i, k) from ⟨rfl, PagesOnly.refl k⟩) (Nat.zero_le _)
    (show (i - newSize + 4095) / 4096 - 0 < pageLoopFuel by unfold pageLoopFuel; omega)
    (by
      intro j s le round
      have here := round.1
      congr 1
      exact decide_eq_decide.mpr (by omega))
    (by
      intro j s more round
      have here := round.1
      have present : s.2.HasTable ((k.heap.startAddress + i - 4096 * j) / 4096) :=
        round.2.hasTable.mpr (mapped _ (by omega) (by omega))
      have next : Word32.sub s.1 pageSize = s.1 - 4096 := by
        rw [pageSize, Word32.sub_of_le (by omega) (by omega)]
      refine ⟨(s.1 - 4096, _), ?_, show s.1 - 4096 + 4096 * (j + 1) = i by omega,
        round.2.freeFrame (s.2.entryOf ((k.heap.startAddress + i - 4096 * j) / 4096))⟩
      unfold contractPage
      simp only [page j s more round, getPage_present kmallocInt present, ok_bind, next]
      rfl)
    (by
      intro j s more round
      rw [pageOf, page j s more round])
  refine ⟨i', k', result, only, ?_⟩
  rw [contractCalls, visited, Nat.sub_zero, List.range_eq_range']

-- `new_size` as `expand` rounds it
def pageRounded (newSize : Nat) : Nat :=
  if newSize &&& 0xFFFFF000 ≠ 0 then Word32.add (newSize &&& 0xFFFFF000) pageSize else newSize

theorem pageRounded_eq {newSize : Nat} (small : newSize < 4294967296) :
    pageRounded newSize = expandedLength newSize % 4294967296 := by
  unfold pageRounded expandedLength
  rw [Word32.and_page_mask small, pageSize, Word32.add]
  by_cases low : newSize < 4096
  · rw [if_neg (by omega), if_pos low, Nat.mod_eq_of_lt small]
  · rw [if_pos (by omega), if_neg low]

theorem pageRounded_of_lt {newSize : Nat} (noWrap : expandedLength newSize < 4294967296) :
    pageRounded newSize = expandedLength newSize := by
  have above := le_expandedLength newSize
  rw [pageRounded_eq (by omega), Nat.mod_eq_of_lt noWrap]

theorem expand_returns {newSize : Nat} (result : expand kmallocInt newSize k = .ok k')
    (le : k.heap.startAddress ≤ k.heap.endAddress) (small : k.heap.endAddress < 4294967296) :
    k.heap.endAddress - k.heap.startAddress < newSize ∧
      Word32.add k.heap.startAddress (pageRounded newSize) ≤ k.heap.maxAddress ∧
      ∃ i k1, expandPages kmallocInt (pageRounded newSize)
          (k.heap.endAddress - k.heap.startAddress) k = .ok (i, k1) ∧
        k' = { k1 with heap := { k1.heap with
          endAddress := Word32.add k1.heap.startAddress (pageRounded newSize) } } := by
  have length : Word32.sub k.heap.endAddress k.heap.startAddress =
      k.heap.endAddress - k.heap.startAddress := Word32.sub_of_le le small
  unfold expand at result
  simp only [length] at result
  change (ASSERT _ _ _ _ >>= fun _ => ASSERT
    (Word32.add k.heap.startAddress (pageRounded newSize) ≤ k.heap.maxAddress) _ _ _ >>= fun _ =>
    expandPages kmallocInt (pageRounded newSize) (k.heap.endAddress - k.heap.startAddress) k >>=
      _) = _ at result
  by_cases grows : newSize > k.heap.endAddress - k.heap.startAddress
  · by_cases fits : Word32.add k.heap.startAddress (pageRounded newSize) ≤ k.heap.maxAddress
    · rw [ASSERT, if_pos grows, ok_bind, ASSERT, if_pos fits, ok_bind] at result
      cases looped : expandPages kmallocInt (pageRounded newSize)
          (k.heap.endAddress - k.heap.startAddress) k with
      | error halt =>
        rw [looped] at result
        cases result
      | ok done =>
        rw [looped] at result
        exact ⟨grows, fits, done.1, done.2, rfl, (Except.ok.inj result).symm⟩
    · rw [ASSERT, if_pos grows, ok_bind, ASSERT, if_neg fits] at result
      cases result
  · rw [ASSERT, if_neg grows] at result
    cases result

theorem expand_loops (kmallocInt : Kmalloc) {newSize : Nat}
    (grows : k.heap.endAddress - k.heap.startAddress < newSize)
    (fits : k.heap.startAddress + expandedLength newSize ≤ k.heap.maxAddress)
    (limit : k.heap.maxAddress < 4294967296) (le : k.heap.startAddress ≤ k.heap.endAddress)
    (small : k.heap.endAddress < 4294967296) :
    expand kmallocInt newSize k = (expandPages kmallocInt (expandedLength newSize)
      (k.heap.endAddress - k.heap.startAddress) k >>= fun done => .ok { done.2 with heap :=
        { done.2.heap with
          endAddress := Word32.add done.2.heap.startAddress (expandedLength newSize) } }) := by
  have length : Word32.sub k.heap.endAddress k.heap.startAddress =
      k.heap.endAddress - k.heap.startAddress := Word32.sub_of_le le small
  have rounded : pageRounded newSize = expandedLength newSize := pageRounded_of_lt (by omega)
  have sum : Word32.add k.heap.startAddress (expandedLength newSize) =
      k.heap.startAddress + expandedLength newSize := Word32.add_of_lt (by omega)
  unfold expand
  simp only [length]
  change (ASSERT _ _ _ _ >>= fun _ => ASSERT
    (Word32.add k.heap.startAddress (pageRounded newSize) ≤ k.heap.maxAddress) _ _ _ >>= fun _ =>
    expandPages kmallocInt (pageRounded newSize) (k.heap.endAddress - k.heap.startAddress) k >>=
      fun done => .ok { done.2 with heap := { done.2.heap with
        endAddress := Word32.add done.2.heap.startAddress (pageRounded newSize) } }) = _
  rw [rounded, ASSERT, if_pos grows, ok_bind, ASSERT, if_pos (sum.symm ▸ fits), ok_bind]

theorem expand_correct (kmallocInt : Kmalloc) {newSize : Nat}
    (grows : k.heap.endAddress - k.heap.startAddress < newSize)
    (fits : k.heap.startAddress + expandedLength newSize ≤ k.heap.maxAddress)
    (limit : k.heap.maxAddress < 4294967296) (top : expandedLength newSize + 4095 < 4294967296)
    (le : k.heap.startAddress ≤ k.heap.endAddress) (small : k.heap.endAddress < 4294967296)
    (mapped : Mapped k k.heap.maxAddress) :
    ∃ k1, PagesOnly k k1 ∧ expand kmallocInt newSize k = .ok { k1 with heap :=
      { k1.heap with endAddress := k.heap.startAddress + expandedLength newSize } } := by
  obtain ⟨i, k1, looped, only, -⟩ : ∃ i k1, expandPages kmallocInt (expandedLength newSize)
      (k.heap.endAddress - k.heap.startAddress) k = .ok (i, k1) ∧ PagesOnly k k1 ∧ _ :=
    expandPages_correct (fun a lower upper => mapped a lower (by omega)) (by omega) top
  refine ⟨k1, only, ?_⟩
  rw [expand_loops kmallocInt grows fits limit le small, looped, ok_bind, only.heap,
    Word32.add_of_lt (by omega)]

theorem expand_tableless {newSize : Nat} {halt : Halt}
    (grows : k.heap.endAddress - k.heap.startAddress < newSize)
    (fits : k.heap.startAddress + expandedLength newSize ≤ k.heap.maxAddress)
    (limit : k.heap.maxAddress < 4294967296) (le : k.heap.startAddress ≤ k.heap.endAddress)
    (small : k.heap.endAddress < 4294967296) (missing : ¬ k.HasTable (k.heap.endAddress / 4096))
    (asked : kmallocInt sizeofPageTable 1 true k = .error halt) :
    expand kmallocInt newSize k = .error halt := by
  have above := le_expandedLength newSize
  have next : Word32.add k.heap.startAddress (k.heap.endAddress - k.heap.startAddress) =
      k.heap.endAddress := by
    rw [Word32.add_of_lt (by omega)]
    omega
  have none : ¬ k.directory.Holds (k.heap.endAddress / 4096 / 1024) := missing
  have first : expandPage kmallocInt (k.heap.endAddress - k.heap.startAddress, k) =
      .error halt := by
    unfold expandPage getPage kmallocAp
    simp only [next, Nat.shiftRight_eq_div_pow]
    rw [if_neg none, asked]
    rfl
  have more : decide (k.heap.endAddress - k.heap.startAddress < expandedLength newSize) = true :=
    decide_eq_true (by omega)
  have rounds : pageLoopFuel = 1048576 + 1 := rfl
  rw [expand_loops kmallocInt grows fits limit le small, expandPages_eq, rounds, whileLoop]
  simp only [more, first]
  rfl

-- and halts when that is over the maximum
theorem expand_over (kmallocInt : Kmalloc) {newSize : Nat}
    (grows : k.heap.endAddress - k.heap.startAddress < newSize)
    (beyond : k.heap.maxAddress < k.heap.startAddress + expandedLength newSize)
    (noWrap : k.heap.startAddress + expandedLength newSize < 4294967296)
    (le : k.heap.startAddress ≤ k.heap.endAddress) (small : k.heap.endAddress < 4294967296) :
    ∃ file line desc, expand kmallocInt newSize k = .error (.panicAssert file line desc) := by
  have length : Word32.sub k.heap.endAddress k.heap.startAddress =
      k.heap.endAddress - k.heap.startAddress := Word32.sub_of_le le small
  have rounded : pageRounded newSize = expandedLength newSize := pageRounded_of_lt (by omega)
  refine ⟨"kernel/kheap.c", 45, "(heap->start_address + new_size) <= heap->max_address", ?_⟩
  unfold expand
  simp only [length]
  change (ASSERT _ _ _ _ >>= fun _ => ASSERT
    (Word32.add k.heap.startAddress (pageRounded newSize) ≤ k.heap.maxAddress) _ _ _ >>= _) = _
  rw [rounded, Word32.add_of_lt noWrap, ASSERT, if_pos grows, ok_bind, ASSERT,
    if_neg (Nat.not_le_of_lt beyond), error_bind]

theorem contractedLength_eq (newSize : Nat) :
    (if (if newSize &&& pageSize ≠ 0 then
        Word32.add (newSize &&& pageSize) pageSize else newSize) < heapMinSize then heapMinSize
      else if newSize &&& pageSize ≠ 0 then
        Word32.add (newSize &&& pageSize) pageSize else newSize) = contractedLength newSize := by
  simp only [pageSize, Word32.and_page_bit]
  unfold contractedLength
  by_cases odd : newSize / 4096 % 2 = 1
  · simp [odd, heapMinSize]
  · have even : newSize / 4096 % 2 = 0 := by omega
    simp only [even, Nat.mul_zero, ne_eq, not_true_eq_false, if_false, Nat.zero_ne_one]
    split
    next low => exact (max_eq_right (Nat.le_of_lt low)).symm
    next high => exact (max_eq_left (Nat.le_of_not_lt high)).symm

theorem contract_correct (kmallocInt : Kmalloc) {newSize : Nat}
    (shrinks : newSize < k.heap.endAddress - k.heap.startAddress)
    (small : k.heap.endAddress < 4294967296)
    (least : heapMinSize ≤ k.heap.endAddress - k.heap.startAddress)
    (mapped : Mapped k k.heap.endAddress) :
    ∃ k1, PagesOnly k k1 ∧ contract kmallocInt newSize k = .ok (contractedLength newSize,
      { k1 with heap :=
        { k1.heap with endAddress := k.heap.startAddress + contractedLength newSize } }) := by
  have length : Word32.sub k.heap.endAddress k.heap.startAddress =
      k.heap.endAddress - k.heap.startAddress := Word32.sub_of_le (by omega) small
  have within := contractedLength_le (Nat.le_of_lt shrinks) least
  have atLeast := le_contractedLength newSize
  have page : heapMinSize = 458752 := rfl
  have last : Word32.sub (k.heap.endAddress - k.heap.startAddress) pageSize =
      k.heap.endAddress - k.heap.startAddress - 4096 := by
    rw [pageSize, Word32.sub_of_le (by omega) (by omega)]
  obtain ⟨i, k1, looped, only, -⟩ : ∃ i k1, contractPages kmallocInt (contractedLength newSize)
      (k.heap.endAddress - k.heap.startAddress - 4096) k = .ok (i, k1) ∧ PagesOnly k k1 ∧ _ :=
    contractPages_correct (fun a lower upper => mapped a lower (by omega)) (by omega) (by omega)
  refine ⟨k1, only, ?_⟩
  unfold contract
  simp only [contractedLength_eq, length]
  rw [last, looped, ASSERT, if_pos shrinks]
  have stop : Word32.add k1.heap.startAddress (contractedLength newSize) =
      k.heap.startAddress + contractedLength newSize := by
    rw [only.heap, Word32.add_of_lt (by omega)]
  rw [← stop]
  rfl

theorem contract_shrinks {kmallocInt : Kmalloc} {newSize newLength : Nat}
    (result : contract kmallocInt newSize k = .ok (newLength, k'))
    (le : k.heap.startAddress ≤ k.heap.endAddress) (small : k.heap.endAddress < 4294967296) :
    newSize < k.heap.endAddress - k.heap.startAddress := by
  have length : Word32.sub k.heap.endAddress k.heap.startAddress =
      k.heap.endAddress - k.heap.startAddress := Word32.sub_of_le le small
  by_contra grows
  unfold contract at result
  simp only [length] at result
  rw [ASSERT, if_neg grows] at result
  cases result

end GekonOS
