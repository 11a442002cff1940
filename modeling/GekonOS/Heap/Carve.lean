import GekonOS.Heap.Index
import GekonOS.Heap.Search
import GekonOS.Heap.Writes

set_option autoImplicit false

namespace GekonOS

open ByteMemory Loop Tiling

-- a remainder too small for a hole of its own goes to the block
def blockLength (total newSize : Nat) : Nat := if total - newSize < 20 then total else newSize

theorem blockLength_le {total newSize : Nat} (fits : newSize ≤ total) :
    newSize ≤ blockLength total newSize ∧ blockLength total newSize ≤ total := by
  unfold blockLength
  split <;> omega

theorem blockLength_rest {total newSize : Nat} (fits : newSize ≤ total) :
    blockLength total newSize = total ∨ blockLength total newSize + 20 ≤ total := by
  unfold blockLength
  split <;> omega

variable {k : Kernel} {size total iterator : Nat}

-- the size of the block and of its payload, as `alloc` adjusts them
def takenSize (total newSize : Nat) : Nat :=
  if Word32.sub total newSize < sizeofHeader + sizeofFooter then total else newSize

def takenPayload (total size newSize : Nat) : Nat :=
  if Word32.sub total newSize < sizeofHeader + sizeofFooter then
    Word32.add size (Word32.sub total newSize) else size

theorem takenSize_eq (fits : size + 20 ≤ total) (small : total < 4294967296) :
    takenSize total (size + 20) = blockLength total (size + 20) := by
  rw [takenSize, Word32.sub_of_le fits small]
  rfl

theorem takenPayload_eq (fits : size + 20 ≤ total) (small : total < 4294967296) :
    takenPayload total size (size + 20) = blockLength total (size + 20) - 20 := by
  rw [takenPayload, Word32.sub_of_le fits small]
  unfold blockLength sizeofHeader sizeofFooter
  by_cases absorbed : total - (size + 20) < 12 + 8
  · have small' : size + (total - (size + 20)) < 4294967296 := by omega
    simp only [if_pos absorbed, Word32.add_of_lt small']
    omega
  · simp only [if_neg absorbed]
    omega

section Take

variable {newSize pageAlign : Nat}

-- `change` refolds the end of `takeHole`, which is `placeBlock` to the letter
theorem takeHole_plain (within : iterator < k.heap.index.size)
    (plain : ¬ (pageAlign ≠ 0 ∧ k.heap.index.slot k.mem iterator &&& 0xFFFFF000 ≠ 0))
    (total_eq : headerSize k.mem (k.heap.index.slot k.mem iterator) = total)
    {index : OrderedArray} {m : Mem}
    (removed : removeOrderedArray iterator k.heap.index k.mem = .ok (index, m)) :
    takeHole size newSize pageAlign iterator k =
      placeBlock (k.heap.index.slot k.mem iterator) total (takenPayload total size newSize)
        (takenSize total newSize) (k.withIndex index m) := by
  unfold takeHole
  rw [lookupOrderedArray_correct k.mem within, ok_bind, if_neg plain, removed, ok_bind, total_eq]
  rfl

theorem takeHole_split (within : iterator < k.heap.index.size) (aligned : pageAlign ≠ 0)
    (high : k.heap.index.slot k.mem iterator &&& 0xFFFFF000 ≠ 0)
    (total_eq : headerSize k.mem (k.heap.index.slot k.mem iterator) = total) {pos rest : Nat}
    {m : Mem} (split : splitFront (k.heap.index.slot k.mem iterator) total k.mem = (pos, rest, m)) :
    takeHole size newSize pageAlign iterator k =
      placeBlock pos rest (takenPayload total size newSize) (takenSize total newSize)
        { k with mem := m } := by
  unfold takeHole
  rw [lookupOrderedArray_correct k.mem within, ok_bind, if_pos ⟨aligned, high⟩, total_eq, split]
  rfl

end Take

theorem placeBlock_whole (pos size : Nat) (none : Word32.sub total size = 0) (k : Kernel)
    (payload : Nat) : placeBlock pos total payload size k =
      .ok (Word32.add pos sizeofHeader, { k with mem := writeBlock pos payload size k.mem }) := by
  unfold placeBlock
  change (ite (Word32.sub total size > 0) _ _) = _
  rw [none, if_neg (Nat.lt_irrefl 0)]
  rfl

theorem placeBlock_rest {pos payload size holeHeader : Nat} {m m' : Mem} {index : OrderedArray}
    (rest : Word32.sub total size > 0)
    (written : writeRemainder pos payload (Word32.sub total size) k.heap.endAddress
      (writeBlock pos payload size k.mem) = (holeHeader, m))
    (inserted : insertOrderedArray holeHeader k.heap.index m = .ok (index, m')) :
    placeBlock pos total payload size k =
      .ok (Word32.add pos sizeofHeader, k.withIndex index m') := by
  unfold placeBlock
  change (ite (Word32.sub total size > 0) _ _) = _
  rw [if_pos rest, written]
  change (insertOrderedArray holeHeader k.heap.index m >>= _) = _
  rw [inserted]
  rfl

theorem writeRemainder_fst (pos size rest endAddress : Nat) (m : Mem) :
    (writeRemainder pos size rest endAddress m).1 =
      Word32.add (Word32.add (Word32.add pos sizeofHeader) size) sizeofFooter := by
  simp only [writeRemainder]
  split <;> rfl

theorem placeBlock_cases {pos payload size p : Nat} {k' : Kernel}
    (result : placeBlock pos total payload size k = .ok (p, k')) :
    p = Word32.add pos sizeofHeader ∧
      (Word32.sub total size = 0 ∧ k' = { k with mem := writeBlock pos payload size k.mem } ∨
        Word32.sub total size > 0 ∧ ∃ holeHeader m index m',
          writeRemainder pos payload (Word32.sub total size) k.heap.endAddress
            (writeBlock pos payload size k.mem) = (holeHeader, m) ∧
          insertOrderedArray holeHeader k.heap.index m = .ok (index, m') ∧
          k' = k.withIndex index m') := by
  unfold placeBlock at result
  change (ite (Word32.sub total size > 0) _ _) = _ at result
  by_cases rest : Word32.sub total size > 0
  · rw [if_pos rest] at result
    cases written : writeRemainder pos payload (Word32.sub total size) k.heap.endAddress
      (writeBlock pos payload size k.mem) with
    | mk holeHeader m =>
      rw [written] at result
      change (insertOrderedArray holeHeader k.heap.index m >>= _) = _ at result
      cases inserted : insertOrderedArray holeHeader k.heap.index m with
      | error halt =>
        rw [inserted] at result
        cases result
      | ok r =>
        obtain ⟨index, m'⟩ := r
        rw [inserted] at result
        obtain ⟨rfl, rfl⟩ := Prod.mk.inj (Except.ok.inj result)
        exact ⟨rfl, Or.inr ⟨rest, holeHeader, m, index, m', rfl, inserted, rfl⟩⟩
  · rw [if_neg rest] at result
    obtain ⟨rfl, rfl⟩ := Prod.mk.inj (Except.ok.inj result)
    exact ⟨rfl, Or.inl ⟨Nat.eq_zero_of_not_pos rest, rfl⟩⟩

-- where the header of the remainder goes
def restHeader (pos payload : Nat) : Nat :=
  Word32.add (Word32.add (Word32.add pos sizeofHeader) payload) sizeofFooter

theorem placeBlock_listed {pos payload size p : Nat} {k' : Kernel}
    (result : placeBlock pos total payload size k = .ok (p, k'))
    (rest : Word32.sub total size > 0) :
    k'.heap.index = { k.heap.index with size := k.heap.index.size + 1 } ∧
      restHeader pos payload ∈ k'.heap.index.entries k'.mem := by
  cases (placeBlock_cases result).2 with
  | inl whole => exact absurd whole.1 (Nat.ne_of_gt rest)
  | inr split =>
    obtain ⟨-, holeHeader, m, index, m', written, inserted, rfl⟩ := split
    have first := writeRemainder_fst pos payload (Word32.sub total size) k.heap.endAddress
      (writeBlock pos payload size k.mem)
    rw [written] at first
    change holeHeader = restHeader pos payload at first
    obtain ⟨sized, listed, -⟩ := insertOrderedArray_returns inserted
      (first.symm ▸ Word32.add_lt _ _)
    exact ⟨sized, first ▸ listed.mem_iff.mpr List.mem_cons_self⟩

theorem takeHole_ptr {newSize pageAlign p : Nat} {k' : Kernel}
    (within : iterator < k.heap.index.size) (few : k.heap.index.size < 4294967296)
    (plain : ¬ (pageAlign ≠ 0 ∧ k.heap.index.slot k.mem iterator &&& 0xFFFFF000 ≠ 0))
    (result : takeHole size newSize pageAlign iterator k = .ok (p, k')) :
    p = Word32.add (k.heap.index.slot k.mem iterator) sizeofHeader := by
  obtain ⟨m, removed, -⟩ := removeOrderedArray_correct k.mem within few
  rw [takeHole_plain within plain rfl removed] at result
  exact (placeBlock_cases result).1

/-- What is left behind the block, as a hole of its own. -/
def remainderOf (pos total size : Nat) : List Chunk :=
  if room : 20 ≤ total - size then
    [{ addr := pos + size, size := total - size, hole := true, room := room }]
  else []

def blockOf (pos size : Nat) (room : 20 ≤ size) : Chunk :=
  { addr := pos, size := size, hole := false, room := room }

variable {pos : Nat}

/--
The hole at `pos` has become the block and at most one hole behind it. Memory has changed in it and
in the index only.
-/
theorem placeBlock_correct (tagged : Chunk → Prop) {newSize : Nat} (room : 20 ≤ newSize) (fits : newSize ≤ total)
    (whole : newSize = total ∨ newSize + 20 ≤ total)
    (sound : IndexIn k.heap.index k.mem k.heap.startAddress k.heap.endAddress)
    (capacity : newSize ≠ total → k.heap.index.size < k.heap.index.maxSize)
    (lower : k.heap.startAddress ≤ pos) (upper : pos + total ≤ k.heap.endAddress) :
    ∃ index m, placeBlock pos total (newSize - 20) newSize k =
        .ok (pos + 12, k.withIndex index m) ∧
      index = { k.heap.index with size := k.heap.index.size +
        (remainderOf pos total newSize).length } ∧
      index.entries m = (holeAddrs (remainderOf pos total newSize)).foldr
        (fun a => List.orderedInsert (sizeLe m) a) (k.heap.index.entries k.mem) ∧
      Layout tagged m pos (pos + total) (blockOf pos newSize room :: remainderOf pos total newSize) ∧
      Set.EqOn m k.mem (Set.Ico pos (pos + total) ∪
        k.heap.index.region k.heap.index.maxSize)ᶜ ∧
      IndexIn index m k.heap.startAddress k.heap.endAddress := by
  have small := sound.small
  have ptr : Word32.add pos sizeofHeader = pos + 12 :=
    Word32.add_of_lt (show pos + 12 < 4294967296 by omega)
  obtain ⟨m1, written⟩ : ∃ m1, writeBlock pos (newSize - 20) newSize k.mem = m1 := ⟨_, rfl⟩
  have block : (blockOf pos newSize room).HeaderAt m1 ∧ (blockOf pos newSize room).FooterAt m1 ∧
      Set.EqOn m1 k.mem (Set.Ico pos (pos + newSize))ᶜ := by
    rw [← written]
    exact writeBlock_correct k.mem (blockOf pos newSize room) rfl
      (show pos + newSize < 4294967296 by omega)
  obtain ⟨header, footer, frame⟩ := block
  have arraySame : Set.EqOn m1 k.mem (k.heap.index.region k.heap.index.maxSize) := by
    apply sound.array_same
    refine frame.mono (Set.compl_subset_compl.mpr ?_)
    exact Set.Ico_subset_Ico lower (by omega)
  cases whole with
  | inl all =>
    subst all
    have none : remainderOf pos newSize newSize = [] := by
      rw [remainderOf, dif_neg (by omega)]
    have zero : Word32.sub newSize newSize = 0 := by
      rw [Word32.sub_of_le (Nat.le_refl _) (by omega), Nat.sub_self]
    refine ⟨k.heap.index, m1, ?_, ?_, ?_, ?_, ?_, sound.congr arraySame⟩
    · rw [placeBlock_whole pos newSize zero k (newSize - 20), written, ptr]
      rfl
    · rw [none]
      rfl
    · rw [none, sound.entries_same arraySame]
      rfl
    · rw [none]
      exact Layout.singleton rfl rfl header fun _ => footer
    · exact frame.mono (Set.compl_subset_compl.mpr Set.subset_union_left)
  | inr split =>
    have minus : Word32.sub total newSize = total - newSize := Word32.sub_of_le fits (by omega)
    have roomBehind : 20 ≤ total - newSize := by omega
    let behind : Chunk :=
      { addr := pos + newSize, size := total - newSize, hole := true, room := roomBehind }
    have one : remainderOf pos total newSize = [behind] := by
      rw [remainderOf, dif_pos roomBehind]
    obtain ⟨m2, remainder, header', footer', frame'⟩ := writeRemainder_correct m1 behind pos
      (newSize - 20) k.heap.endAddress rfl (show pos + (newSize - 20) + 20 = pos + newSize by omega)
      (show pos + newSize + (total - newSize) ≤ k.heap.endAddress by omega) small
    have arraySame' : Set.EqOn m2 m1 (k.heap.index.region k.heap.index.maxSize) := by
      apply (sound.congr arraySame).array_same
      refine frame'.mono (Set.compl_subset_compl.mpr ?_)
      exact Set.Ico_subset_Ico (show k.heap.startAddress ≤ pos + newSize by omega)
        (show pos + newSize + (total - newSize) ≤ k.heap.endAddress by omega)
    have both := arraySame'.trans arraySame
    obtain ⟨m3, inserted, entries, outside, sound'⟩ := (sound.congr both).insert
      (capacity (by omega)) (show k.heap.startAddress ≤ behind.addr by simp only [behind]; omega)
      (show behind.addr + 12 ≤ k.heap.endAddress by simp only [behind]; omega)
    have heapSame : Set.EqOn m3 m2 (Set.Ico k.heap.startAddress k.heap.endAddress) :=
      (sound.congr both).heap_same outside
    refine ⟨_, m3, ?_, ?_, ?_, ?_, ?_, sound'⟩
    · rw [← ptr]
      apply placeBlock_rest (by omega) _ inserted
      rw [minus, written, remainder]
    · rw [one]
      rfl
    · rw [one, entries, sound.entries_same both]
      rfl
    · rw [one]
      have blockSame : Set.EqOn m3 m1 (blockOf pos newSize room).bytes := by
        refine (heapSame.mono (Set.Ico_subset_Ico lower ?_)).trans (frame'.mono ?_)
        · simp only [blockOf]
          omega
        · intro x within
          simp only [Chunk.bytes, blockOf, behind, Set.mem_Ico, Set.mem_compl_iff] at within ⊢
          omega
      have behindSame : Set.EqOn m3 m2 behind.bytes :=
        heapSame.mono (Set.Ico_subset_Ico (by simp only [behind]; omega)
          (by simp only [behind]; omega))
      refine Layout.cons.mpr ⟨rfl, header.congr blockSame, fun _ => footer.congr blockSame, ?_⟩
      refine Layout.singleton rfl ?_ (header'.congr behindSame) fun _ => footer'.congr behindSame
      simp only [blockOf, behind]
      omega
    · intro x away
      simp only [Set.mem_compl_iff, Set.mem_union, Set.mem_Ico, not_or] at away
      rw [outside away.2, frame' _, frame _]
      · simp only [Set.mem_compl_iff, Set.mem_Ico]
        omega
      · simp only [Chunk.bytes, behind, Set.mem_compl_iff, Set.mem_Ico]
        omega

end GekonOS
