import GekonOS.Boot.IdentityMap
import GekonOS.Frames.Exhaustion

set_option autoImplicit false

namespace GekonOS.Storage

open Loop Placement IdentityMap Exhaustion

-- what `paging_init` reserves with `kmalloc` and clears with `memset`
def reservedBytes (k : Kernel) : Set Nat :=
  Set.Ico k.framesAddr (k.framesAddr + indexFromBit k.nframes)

def wordBytes (k : Kernel) (word : Nat) : Set Nat :=
  Set.Ico (k.framesAddr + 4 * word) (k.framesAddr + 4 * word + 4)

/-- The words that `first_free_frame` scans and the words of the frames that exist. -/
def UsedWord (k : Kernel) (word : Nat) : Prop :=
  word < indexFromBit k.nframes ∨
    ∃ frame < k.nframes, word = frameWord (Word32.mul frame pageSize)

def directoryBytes (k : Kernel) : Set Nat :=
  Set.Ico k.directoryAddr (k.directoryAddr + sizeofPageDirectory)

def tableBytes (k : Kernel) (i : Nat) : Set Nat :=
  Set.Ico (k.directory.tables i) (k.directory.tables i + sizeofPageTable)

/-- No used word shares a byte with the directory or a page table. -/
def ClearOfTables (k : Kernel) : Prop :=
  ∀ word, UsedWord k word → Disjoint (wordBytes k word) (directoryBytes k) ∧
    ∀ i, k.directory.Holds i → Disjoint (wordBytes k word) (tableBytes k i)

structure StorageReserved (k : Kernel) : Prop where
  inside : ∀ word, UsedWord k word → wordBytes k word ⊆ reservedBytes k
  clear : ClearOfTables k

variable (fuel : Nat) {nframes n : Nat} {k : Kernel}

theorem usedWord_iff (few : k.nframes ≤ 1048576) (word : Nat) :
    UsedWord k word ↔ word < (k.nframes + 31) / 32 := by
  have ofFrame {frame : Nat} (exists_ : frame < k.nframes) :
      frameWord (Word32.mul frame pageSize) = frame / 32 := by
    have small : frame * pageSize < 4294967296 := by
      simp only [pageSize]
      omega
    rw [frameWord, Word32.mul_of_lt small, Nat.mul_div_cancel _ (by decide)]
    rfl
  unfold UsedWord indexFromBit
  constructor
  · intro used
    cases used with
    | inl scanned => omega
    | inr touched =>
      obtain ⟨frame, exists_, rfl⟩ := touched
      rw [ofFrame exists_]
      omega
  · intro below
    have exists_ : 32 * word < k.nframes := by omega
    refine Or.inr ⟨32 * word, exists_, ?_⟩
    rw [ofFrame exists_]
    omega

/-- The addresses inside the loop of `paging_init`, at page `n`. -/
structure Reached (nframes n : Nat) (k : Kernel) : Prop where
  tables : Tables (directoryAt nframes + 8196) k
  count : k.nframes = nframes
  bound : n ≤ imageEnd nframes
  holds : ∀ i, k.directory.Holds i ↔ i = 0 ∧ n ≠ 0
  placement : k.placementAddress =
    if n = 0 then directoryAt nframes + 8196 else 4096 * imageEnd nframes
  framesAddr : k.framesAddr = 0x200000
  directoryAddr : k.directoryAddr = directoryAt nframes

theorem Reached.alloc (reached : Reached nframes n k) (page isKernel isWriteable : Nat) :
    Reached nframes n (allocFrame page isKernel isWriteable k).2 := by
  obtain ⟨frames, entry, result⟩ := allocFrame_entry page isKernel isWriteable k
  obtain ⟨tables, count, bound, holds, placement, framesAddr, directoryAddr⟩ := reached
  rw [result]
  exact ⟨⟨tables.noHeap, tables.low, tables.absent, tables.aligned, tables.inside,
    tables.physical, tables.apart⟩, count, bound, holds, placement, framesAddr, directoryAddr⟩

theorem Reached.next (reached : Reached nframes n k) (below : n < imageEnd nframes)
    (few : nframes ≤ 1048576) :
    ∃ k', mapNext fuel (4096 * n, k) = .ok (4096 * n + 4096, k') ∧ Reached nframes (n + 1) k' := by
  obtain ⟨onPage, low, high⟩ := directoryAt_bounds few
  have last := (imageEnd_bounds few).2
  have here : 4096 * n / 4096 = n := by omega
  have floor : 4096 ≤ directoryAt nframes + 8196 := by omega
  have placement := reached.placement
  have tableOf : k.HasTable n ↔ n ≠ 0 := by
    unfold Kernel.HasTable
    rw [reached.holds]
    omega
  obtain ⟨k1, got, tables, -, outcome⟩ := getPage_correct fuel (4096 * n) reached.tables floor
    (by
      rw [here, tableOf]
      intro zero
      unfold TableFits newTable alignedAddress
      split at placement <;> split <;> omega)
  have reached1 : Reached nframes (n + 1) k1 := by
    rw [here, tableOf] at outcome
    cases outcome with
    | inl present =>
      obtain ⟨later, rfl⟩ := present
      refine ⟨tables, reached.count, below, ?_, ?_, reached.framesAddr, reached.directoryAddr⟩
      · intro i
        rw [reached.holds]
        omega
      · rw [placement, if_neg later, if_neg (Nat.succ_ne_zero n)]
    | inr absent =>
      obtain ⟨first, rfl⟩ := absent
      obtain rfl : n = 0 := by omega
      refine ⟨tables, reached.count, below, ?_, ?_, reached.framesAddr, reached.directoryAddr⟩
      · intro i
        rw [reached.tables.holds_withTable floor, reached.holds]
        omega
      · rw [if_pos rfl] at placement
        rw [if_neg (Nat.succ_ne_zero 0)]
        change newTable k + 4096 = 4096 * imageEnd nframes
        unfold newTable alignedAddress imageEnd
        rw [placement]
        split <;> omega
  have small : 4096 * n + pageSize < 4294967296 := by
    simp only [pageSize]
    omega
  refine ⟨_, ?_, reached1.alloc (k1.entryOf (4096 * n / 4096)) 0 0⟩
  simp only [mapNext, got, bind, Except.bind, pure, Except.pure, Word32.add_of_lt small]
  rfl

theorem identityPages_reached (reached : Reached nframes 0 k) (few : nframes ≤ 1048576) :
    ∃ i k', identityPages fuel k = .ok (i, k') ∧ Reached nframes (imageEnd nframes) k' := by
  obtain ⟨low, high⟩ := imageEnd_bounds few
  have onPage := (directoryAt_bounds few).1
  obtain ⟨⟨i, k'⟩, result, ⟨n, at_, final⟩, stop⟩ := whileLoop_total Halt.outOfFuel
    (fun s : Nat × Kernel => .ok (decide (s.1 < s.2.placementAddress))) (mapNext fuel)
    (fun s => ∃ n, s.1 = 4096 * n ∧ Reached nframes n s.2)
    (fun s => imageEnd nframes - s.1 / 4096) pageLoopFuel (0, k) ⟨0, rfl, reached⟩
    (by simp only [pageLoopFuel]; omega) (fun s _ => ⟨_, rfl⟩)
    (by
      rintro ⟨i, k⟩ ⟨n, at_, reached⟩ test
      simp only [Except.ok.injEq, decide_eq_true_eq] at at_ test
      subst at_
      have placement : k.placementAddress = _ := reached.placement
      have below : n < imageEnd nframes := by
        unfold imageEnd at placement ⊢
        split at placement <;> omega
      obtain ⟨k', next, later⟩ := reached.next fuel below few
      refine ⟨_, next, ⟨n + 1, by simp only; omega, later⟩, ?_⟩
      simp only
      omega)
  simp only [Except.ok.injEq, decide_eq_false_iff_not] at at_ stop
  have placement : k'.placementAddress = _ := final.placement
  have bound := final.bound
  have done : n = imageEnd nframes := by
    unfold imageEnd at placement bound ⊢
    split at placement <;> omega
  exact ⟨i, k', result, done ▸ final⟩

theorem pagingInit_reached (availableMem : Nat) (noHeap : k.kheap = 0)
    (placement : k.placementAddress = 0x200000) :
    ∃ k', pagingInit fuel availableMem k = .ok k' ∧
      Reached (framesOf availableMem) (imageEnd (framesOf availableMem)) k' := by
  have few := framesOf_le availableMem
  obtain ⟨onPage, low, high⟩ := directoryAt_bounds few
  have nothing (i : Nat) : ¬ (cleared availableMem k).directory.Holds i := fun holds => holds.2 rfl
  have start : Reached (framesOf availableMem) 0 (cleared availableMem k) := by
    refine ⟨⟨noHeap, Nat.le_refl _, fun _ _ => rfl, ?_, ?_, ?_, ?_⟩, rfl, Nat.zero_le _, ?_, rfl,
      rfl, rfl⟩
    · exact fun i holds => absurd holds (nothing i)
    · exact fun i holds => absurd holds (nothing i)
    · exact fun i holds => absurd holds (nothing i)
    · exact fun i _ holds => absurd holds (nothing i)
    · intro i
      simp only [nothing, ne_eq, not_true, and_false]
  obtain ⟨i, k', result, reached⟩ := identityPages_reached fuel start few
  refine ⟨k', ?_, reached⟩
  rw [pagingInit_eq fuel noHeap placement, result]
  rfl

theorem Reached.outside (reached : Reached nframes n k) (few : nframes ≤ 1048576)
    (some : 0 < nframes) : ∃ word, UsedWord k word ∧ ¬ wordBytes k word ⊆ reservedBytes k := by
  refine ⟨(nframes - 1) / 32, ?_, ?_⟩
  · rw [usedWord_iff (by rw [reached.count]; exact few), reached.count]
    omega
  · intro inside
    have last : k.framesAddr + 4 * ((nframes - 1) / 32) + 3 ∈
        wordBytes k ((nframes - 1) / 32) := ⟨by omega, by omega⟩
    have upper := (inside last).2
    rw [reached.count] at upper
    unfold indexFromBit at upper
    omega

/-- The bitmap stays clear of the tables as long as its last word ends below the directory. -/
theorem Reached.clear_iff (reached : Reached nframes n k) (few : nframes ≤ 1048576) :
    ClearOfTables k ↔ 0x200000 + 4 * ((nframes + 31) / 32) ≤ directoryAt nframes := by
  obtain ⟨-, low, high⟩ := directoryAt_bounds few
  have used (word : Nat) : UsedWord k word ↔ word < (nframes + 31) / 32 := by
    rw [usedWord_iff (by rw [reached.count]; exact few), reached.count]
  constructor
  · intro clear
    by_contra covered
    -- the word at the start of the directory
    have word : UsedWord k ((directoryAt nframes - 0x200000) / 4) := by
      rw [used]
      omega
    have inWord : directoryAt nframes ∈ wordBytes k ((directoryAt nframes - 0x200000) / 4) := by
      rw [wordBytes, reached.framesAddr]
      exact ⟨by omega, by omega⟩
    refine Set.disjoint_left.mp (clear _ word).1 inWord ?_
    rw [directoryBytes, reached.directoryAddr]
    exact ⟨Nat.le_refl _, by simp only [sizeofPageDirectory]; omega⟩
  · intro below word isUsed
    rw [used] at isUsed
    have upper {byte : Nat} (member : byte ∈ wordBytes k word) : byte < directoryAt nframes := by
      rw [wordBytes, reached.framesAddr] at member
      have := member.2
      omega
    constructor
    · apply Set.disjoint_left.mpr
      intro byte inWord inDirectory
      rw [directoryBytes, reached.directoryAddr] at inDirectory
      exact Nat.not_lt_of_le inDirectory.1 (upper inWord)
    · intro i holds
      apply Set.disjoint_left.mpr
      intro byte inWord inTable
      have bounds := (reached.tables.inside i holds).1
      have lower := inTable.1
      have := upper inWord
      omega

theorem Reached.reserved_iff (reached : Reached nframes n k) (few : nframes ≤ 1048576) :
    StorageReserved k ↔ nframes = 0 := by
  constructor
  · intro storage
    by_contra some
    obtain ⟨word, used, outside⟩ := reached.outside few (Nat.pos_of_ne_zero some)
    exact outside (storage.inside word used)
  · intro none
    have unused (word : Nat) : ¬ UsedWord k word := by
      rw [usedWord_iff (by rw [reached.count]; exact few), reached.count, none]
      omega
    exact ⟨fun word used => absurd used (unused word), fun word used => absurd used (unused word)⟩

/--
`paging_init` reserves a byte where it needs a word: unless there is no frame at all, a word that
is used lies outside the reserved bytes. The words reach the page directory once the bitmap is
longer than the rest of its page and the whole pages reserved.
-/
theorem storageReserved_iff (fuel availableMem : Nat) (k : Kernel) (noHeap : k.kheap = 0)
    (placement : k.placementAddress = 0x200000) :
    ∃ k', pagingInit fuel availableMem k = .ok k' ∧
      (StorageReserved k' ↔ framesOf availableMem = 0) ∧
      (ClearOfTables k' ↔ 0x200000 + 4 * ((framesOf availableMem + 31) / 32) ≤
        directoryAt (framesOf availableMem)) := by
  have few := framesOf_le availableMem
  obtain ⟨k', result, reached⟩ := pagingInit_reached fuel availableMem noHeap placement
  exact ⟨k', result, reached.reserved_iff few, reached.clear_iff few⟩

theorem storageReserved_iff_32MB : Kernel.boot.kheap = 0 ∧
    Kernel.boot.placementAddress = 0x200000 ∧
    ∃ k', pagingInit 0 32768 Kernel.boot = .ok k' ∧ ClearOfTables k' := by
  obtain ⟨k', result, -, clear⟩ := storageReserved_iff 0 32768 Kernel.boot rfl rfl
  exact ⟨rfl, rfl, k', result, clear.mpr (by decide)⟩

/-- With 32 megabytes a quarter of the bitmap is reserved, with 256 it covers the directory. -/
theorem bitmap_outside : (∃ k', pagingInit 0 32768 Kernel.boot = .ok k' ∧ ¬ StorageReserved k') ∧
    ∃ k', pagingInit 0 262144 Kernel.boot = .ok k' ∧ ¬ ClearOfTables k' := by
  constructor
  · obtain ⟨k', result, reached⟩ := pagingInit_reached 0 32768 (k := Kernel.boot) rfl rfl
    exact ⟨k', result, fun storage => absurd
      ((reached.reserved_iff (framesOf_le _)).mp storage) (by decide)⟩
  · obtain ⟨k', result, reached⟩ := pagingInit_reached 0 262144 (k := Kernel.boot) rfl rfl
    exact ⟨k', result, fun clear => absurd
      ((reached.clear_iff (framesOf_le _)).mp clear) (by decide)⟩

end GekonOS.Storage
