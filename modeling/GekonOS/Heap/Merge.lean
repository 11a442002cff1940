import GekonOS.Heap.InPlace

set_option autoImplicit false

namespace GekonOS

open ByteMemory Loop

theorem ASSERT_ok {b : Prop} [Decidable b] (holds : b) (file : String) (line : Nat)
    (desc : String) : ASSERT b file line desc = .ok () := if_pos holds

/-! ## The steps of `free` -/

section Steps

variable {kmallocInt : Kmalloc} {p header footer header' footer' doAdd : Nat} {k k2 k3 : Kernel}
  {m1 : Mem}

theorem free_steps (nonzero : p ≠ 0) (header_eq : Word32.sub p sizeofHeader = header)
    (footer_eq : Word32.sub (Word32.add header (headerSize k.mem header)) sizeofFooter = footer)
    (headerMagicOk : headerMagic k.mem header = heapMagic)
    (footerMagicOk : footerMagic k.mem footer = heapMagic)
    (left : unifyLeft header footer (setHeaderIsHole k.mem header 1) = (header', doAdd, m1))
    (right : unifyRight header' footer { k with mem := m1 } = .ok (footer', k2))
    (contracted : contractEnd kmallocInt header' footer' (Word32.add footer sizeofFooter) k2 =
      .ok k3) :
    free kmallocInt p k = if doAdd = 1 then
      insertOrderedArray header' k3.heap.index k3.mem >>= fun r => .ok (k3.withIndex r.1 r.2)
      else .ok k3 := by
  unfold free
  rw [if_neg nonzero, header_eq]
  simp -iota only [footer_eq, ASSERT_ok headerMagicOk, ASSERT_ok footerMagicOk, ok_bind, left]
  change (unifyRight header' footer { k with mem := m1 } >>= _) = _
  rw [right]
  change (contractEnd kmallocInt header' footer' (Word32.add footer sizeofFooter) k2 >>= _) = _
  rw [contracted]
  rfl

theorem free_stuck {halt : Halt} (nonzero : p ≠ 0)
    (header_eq : Word32.sub p sizeofHeader = header)
    (footer_eq : Word32.sub (Word32.add header (headerSize k.mem header)) sizeofFooter = footer)
    (headerMagicOk : headerMagic k.mem header = heapMagic)
    (footerMagicOk : footerMagic k.mem footer = heapMagic)
    (left : unifyLeft header footer (setHeaderIsHole k.mem header 1) = (header', doAdd, m1))
    (right : unifyRight header' footer { k with mem := m1 } = .error halt) :
    free kmallocInt p k = .error halt := by
  unfold free
  rw [if_neg nonzero, header_eq]
  simp -iota only [footer_eq, ASSERT_ok headerMagicOk, ASSERT_ok footerMagicOk, ok_bind, left]
  change (unifyRight header' footer { k with mem := m1 } >>= _) = _
  rw [right]
  rfl

-- and where the contraction does
theorem free_stuck_end {halt : Halt} (nonzero : p ≠ 0)
    (header_eq : Word32.sub p sizeofHeader = header)
    (footer_eq : Word32.sub (Word32.add header (headerSize k.mem header)) sizeofFooter = footer)
    (headerMagicOk : headerMagic k.mem header = heapMagic)
    (footerMagicOk : footerMagic k.mem footer = heapMagic)
    (left : unifyLeft header footer (setHeaderIsHole k.mem header 1) = (header', doAdd, m1))
    (right : unifyRight header' footer { k with mem := m1 } = .ok (footer', k2))
    (contracted : contractEnd kmallocInt header' footer' (Word32.add footer sizeofFooter) k2 =
      .error halt) :
    free kmallocInt p k = .error halt := by
  unfold free
  rw [if_neg nonzero, header_eq]
  simp -iota only [footer_eq, ASSERT_ok headerMagicOk, ASSERT_ok footerMagicOk, ok_bind, left]
  change (unifyRight header' footer { k with mem := m1 } >>= _) = _
  rw [right]
  change (contractEnd kmallocInt header' footer' (Word32.add footer sizeofFooter) k2 >>= _) = _
  rw [contracted]
  rfl

theorem unifyRight_keeps (apart : ¬ UnifiesRight (Word32.add footer sizeofFooter) k.mem) :
    unifyRight header footer k = .ok (footer, k) := by
  unfold unifyRight
  change (ite (UnifiesRight (Word32.add footer sizeofFooter) k.mem) _ _) = _
  rw [if_neg apart]
  rfl

theorem contractEnd_keeps {testHeader : Nat}
    (inner : Word32.add footer sizeofFooter ≠ k.heap.endAddress) :
    contractEnd kmallocInt header footer testHeader k = .ok k := if_neg inner

end Steps

/-! ## One chunk out of two -/

namespace Chunk

def freed (b : Chunk) : Chunk := { b with hole := true }

/-- The hole that takes up `a` and the chunk `b` behind it. -/
def join (a b : Chunk) : Chunk :=
  { addr := a.addr, size := a.size + b.size, hole := true, room := Nat.le_add_right_of_le a.room }

end Chunk

variable {m : Mem} {a b c l r : Chunk} {k : Kernel}

-- the bytes of a header that hold its size
def sizeField (h : Nat) : Set Nat := Set.Ico (h + 8) (h + 12)

theorem setHeaderIsHole_correct (header : b.HeaderAt m) :
    b.freed.HeaderAt (setHeaderIsHole m b.addr 1) ∧
      Set.EqOn (setHeaderIsHole m b.addr 1) m {b.addr + 4}ᶜ := by
  unfold setHeaderIsHole
  refine ⟨⟨?_, ?_, ?_⟩, write8_eqOn m _ _ (fun outside => outside rfl)⟩
  · exact (read32_write8_ne m 1 (by simp only [Chunk.freed]; omega)).trans header.1
  · exact read8_write8 m (b.addr + 4) 1
  · exact (read32_write8_ne m 1 (by simp only [Chunk.freed]; omega)).trans header.2.2

theorem setHeaderSize_correct (c : Chunk) (magic : headerMagic m c.addr = heapMagic)
    (flag : headerIsHole m c.addr = if c.hole then 1 else 0) (small : c.size < 4294967296) :
    c.HeaderAt (setHeaderSize m c.addr c.size) ∧
      Set.EqOn (setHeaderSize m c.addr c.size) m (sizeField c.addr)ᶜ := by
  unfold setHeaderSize
  refine ⟨⟨?_, ?_, ?_⟩, write32_eqOn m _ _ ?_⟩
  · exact (read32_write32_ne m c.size (by omega)).trans magic
  · exact (read8_write32_ne m c.size (by omega)).trans flag
  · exact (read32_write32 m (c.addr + 8) c.size).trans (Nat.mod_eq_of_lt small)
  · intro x outside
    simp only [sizeField, Set.mem_compl_iff, Set.mem_Ico] at outside
    omega

/--
The merge to the left, with the header that the footer below the block points to: the size of the
left hole, the footer of the block and its flag are written.
-/
theorem unifyLeft_merges (leftHeader : l.HeaderAt m) (free : l.hole = true)
    (header : b.HeaderAt m) (next : b.addr = l.addr + l.size)
    (small : b.addr + b.size < 4294967296)
    (unifies : UnifiesLeft b.addr (setHeaderIsHole m b.addr 1))
    (points : footerHeader m (b.addr - 8) = l.addr) :
    ∃ m1, unifyLeft b.addr (b.addr + b.size - 8) (setHeaderIsHole m b.addr 1) =
        (l.addr, 0, m1) ∧
      (l.join b).HeaderAt m1 ∧ footerHeader m1 (b.addr + b.size - 8) = l.addr ∧
      footerMagic m1 (b.addr + b.size - 8) = footerMagic m (b.addr + b.size - 8) ∧
      Set.EqOn m1 m (sizeField l.addr ∪ b.bytes)ᶜ := by
  have room := b.room
  have leftRoom := l.room
  obtain ⟨freed, flagged⟩ := setHeaderIsHole_correct header
  obtain ⟨m0, m0_eq⟩ : ∃ m0, setHeaderIsHole m b.addr 1 = m0 := ⟨_, rfl⟩
  rw [m0_eq] at freed flagged unifies ⊢
  have test : Word32.sub b.addr sizeofFooter = b.addr - 8 :=
    Word32.sub_of_le (show 8 ≤ b.addr by omega) (by omega)
  have below : footerHeader m0 (b.addr - 8) = l.addr := by
    rw [← points]
    apply footerHeader_congr
    intro x within
    refine flagged fun here => ?_
    simp only [Set.mem_Ico, Set.mem_singleton_iff] at within here
    omega
  have leftSame : Set.EqOn m0 m l.bytes := by
    intro x within
    refine flagged fun here => ?_
    simp only [Chunk.bytes, Set.mem_Ico, Set.mem_singleton_iff] at within here
    omega
  let m' := setFooterHeader m0 (b.addr + b.size - 8) l.addr
  have footerWritten : Set.EqOn m' m0 (Set.Ico (b.addr + b.size - 4) (b.addr + b.size))ᶜ := by
    apply write32_eqOn
    intro x outside
    simp only [Set.mem_compl_iff, Set.mem_Ico] at outside
    omega
  have leftHeader' : l.HeaderAt m' := by
    refine (leftHeader.congr leftSame).congr (footerWritten.mono ?_)
    intro x within outside
    simp only [Chunk.bytes, Set.mem_Ico] at within outside
    omega
  have sum : Word32.add (headerSize m' l.addr) (headerSize m0 b.addr) = (l.join b).size := by
    rw [leftHeader'.2.2, show headerSize m0 b.addr = b.size from freed.2.2]
    exact Word32.add_of_lt (by omega)
  obtain ⟨joined, sized⟩ := setHeaderSize_correct (l.join b) leftHeader'.1
    (leftHeader'.2.1.trans (by rw [free]; rfl)) (show l.size + b.size < 4294967296 by omega)
  have kept : Set.EqOn (setHeaderSize m' l.addr (l.join b).size) m'
      (Set.Ico (b.addr + b.size - 8) (b.addr + b.size)) := by
    refine sized.mono ?_
    intro x within inside
    simp only [sizeField, Chunk.join, Set.mem_Ico] at within inside
    omega
  refine ⟨setHeaderSize m' l.addr (l.join b).size, ?_, joined, ?_, ?_, ?_⟩
  · unfold unifyLeft
    rw [if_pos unifies, test, ← sum]
    simp only [below, m']
  · have same : footerHeader (setHeaderSize m' l.addr (l.join b).size) (b.addr + b.size - 8) =
        footerHeader m' (b.addr + b.size - 8) :=
      footerHeader_congr (kept.mono (Set.Ico_subset_Ico_right (by omega)))
    rw [same]
    exact (read32_write32 m0 _ l.addr).trans (Nat.mod_eq_of_lt (by omega))
  · have same : footerMagic (setHeaderSize m' l.addr (l.join b).size) (b.addr + b.size - 8) =
        footerMagic m' (b.addr + b.size - 8) :=
      footerMagic_congr (kept.mono (Set.Ico_subset_Ico_right (by omega)))
    have unwritten : footerMagic m' (b.addr + b.size - 8) = footerMagic m0 (b.addr + b.size - 8) :=
      read32_write32_ne m0 l.addr (by omega)
    have unflagged : footerMagic m0 (b.addr + b.size - 8) = footerMagic m (b.addr + b.size - 8) := by
      apply footerMagic_congr
      intro x within
      refine flagged fun here => ?_
      simp only [Set.mem_Ico, Set.mem_singleton_iff] at within here
      omega
    rw [same, unwritten, unflagged]
  · intro x away
    simp only [sizeField, Chunk.bytes, Set.mem_compl_iff, Set.mem_union, Set.mem_Ico,
      not_or] at away
    change setHeaderSize m' (l.join b).addr (l.join b).size x = m x
    rw [sized, footerWritten, flagged]
    · simp only [Set.mem_compl_iff, Set.mem_singleton_iff]
      omega
    · simp only [Set.mem_compl_iff, Set.mem_Ico]
      omega
    · simp only [sizeField, Chunk.join, Set.mem_compl_iff, Set.mem_Ico]
      omega

/--
The merge to the right: the header of the merged hole gets its size and the right hole leaves the
index. The footer of the right hole stays as it is.
-/
theorem unifyRight_merges (header : c.HeaderAt k.mem) (free : c.hole = true)
    (rightHeader : r.HeaderAt k.mem) (rightFree : r.hole = true)
    (next : r.addr = c.addr + c.size) (lower : k.heap.startAddress ≤ c.addr)
    (upper : r.addr + r.size ≤ k.heap.endAddress)
    (sound : IndexIn k.heap.index k.mem k.heap.startAddress k.heap.endAddress)
    (nodup : (k.heap.index.entries k.mem).Nodup) (listed : r.addr ∈ k.heap.index.entries k.mem)
    (few : k.heap.index.size < 4294967296) :
    ∃ index m, unifyRight c.addr (c.addr + c.size - 8) k =
        .ok (r.addr + r.size - 8, k.withIndex index m) ∧
      index = { k.heap.index with size := k.heap.index.size - 1 } ∧
      index.entries m = (k.heap.index.entries k.mem).erase r.addr ∧
      (c.join r).HeaderAt m ∧
      Set.EqOn m k.mem (sizeField c.addr ∪ k.heap.index.region k.heap.index.maxSize)ᶜ ∧
      IndexIn index m k.heap.startAddress k.heap.endAddress := by
  have room := c.room
  have rightRoom := r.room
  have small := sound.small
  have test : Word32.add (c.addr + c.size - 8) sizeofFooter = r.addr := by
    rw [sizeofFooter, Word32.add_of_lt (by omega)]
    omega
  have unifies : UnifiesRight r.addr k.mem := by
    refine ⟨rightHeader.1, ?_⟩
    rw [rightHeader.2.1, rightFree]
    decide
  have sum : Word32.add (headerSize k.mem c.addr) (headerSize k.mem r.addr) = (c.join r).size := by
    rw [header.2.2, rightHeader.2.2]
    exact Word32.add_of_lt (by omega)
  obtain ⟨joined, sized⟩ := setHeaderSize_correct (c.join r) header.1
    (header.2.1.trans (by rw [free]; rfl)) (show c.size + r.size < 4294967296 by omega)
  obtain ⟨m1, m1_eq⟩ : ∃ m1, setHeaderSize k.mem c.addr (c.join r).size = m1 := ⟨_, rfl⟩
  change (c.join r).HeaderAt (setHeaderSize k.mem c.addr (c.join r).size) at joined
  change Set.EqOn (setHeaderSize k.mem c.addr (c.join r).size) k.mem (sizeField c.addr)ᶜ at sized
  rw [m1_eq] at joined sized
  have rightSize : headerSize m1 r.addr = r.size := by
    rw [← rightHeader.2.2]
    apply headerSize_congr
    refine sized.mono ?_
    intro x within inside
    simp only [sizeField, Set.mem_Ico] at within inside
    omega
  have array : Set.EqOn m1 k.mem (k.heap.index.region k.heap.index.maxSize) := by
    apply sound.array_same
    refine sized.mono (Set.compl_subset_compl.mpr ?_)
    intro x inside
    simp only [sizeField, Set.mem_Ico] at inside ⊢
    omega
  have entries := sound.entries_same array
  rw [← entries] at nodup listed
  have within : (k.heap.index.entries m1).idxOf r.addr < k.heap.index.size := by
    have found := List.idxOf_lt_length_of_mem listed
    rwa [OrderedArray.length_entries] at found
  have here : k.heap.index.slot m1 ((k.heap.index.entries m1).idxOf r.addr) = r.addr := by
    have found := List.getElem_idxOf (List.idxOf_lt_length_of_mem listed)
    rwa [OrderedArray.getElem_entries] at found
  obtain ⟨m2, removed, erased, outside, sound'⟩ := (sound.congr array).remove within nodup few
  refine ⟨_, m2, ?_, rfl, ?_, ?_, ?_, sound'⟩
  · have stop : Word32.sub (Word32.add r.addr (headerSize m1 r.addr)) sizeofFooter =
        r.addr + r.size - 8 := by
      rw [rightSize, sizeofFooter, Word32.add_of_lt (by omega), Word32.sub_of_le (by omega)
        (by omega)]
    unfold unifyRight
    simp -iota only [test, if_pos unifies, sum, m1_eq, stop, findInIndex_correct, ok_bind,
      ASSERT_ok within, removed]
    rfl
  · rw [erased, here, entries]
  · refine joined.congr ?_
    refine ((sound.congr array).heap_same outside).mono ?_
    exact Set.Ico_subset_Ico lower (by simp only [Chunk.join]; omega)
  · intro x away
    simp only [Set.mem_compl_iff, Set.mem_union, not_or] at away
    rw [outside away.2, sized away.1]

/-! ## The block and the holes next to it -/

/-- The hole that takes up the block and the holes beside it. -/
def mergedHole : Option Chunk → Chunk → Option Chunk → Chunk
  | none, b, none => b.freed
  | some l, b, none => l.join b
  | none, b, some r => b.freed.join r
  | some l, b, some r => (l.join b).join r

/-- What the merges leave: the header of the merged hole, and the index without the right hole. -/
structure Merged (k : Kernel) (left : Option Chunk) (b : Chunk) (right : Option Chunk)
    (index : OrderedArray) (m : Mem) : Prop where
  array : index = { k.heap.index with size := k.heap.index.size - right.toList.length }
  entries : index.entries m = (k.heap.index.entries k.mem).diff (right.toList.map Chunk.addr)
  header : (mergedHole left b right).HeaderAt m
  footer : right = none → (mergedHole left b right).FooterAt m
  rightSame : ∀ r ∈ right, Set.EqOn m k.mem r.bytes
  frame : Set.EqOn m k.mem ((mergedHole left b right).bytes ∪
    k.heap.index.region k.heap.index.maxSize)ᶜ
  sound : IndexIn index m k.heap.startAddress k.heap.endAddress

-- what stands to the left of the block, as `free` sees it
inductive SeesLeft (m : Mem) (b : Chunk) : Option Chunk → Prop where
  | apart : ¬ UnifiesLeft b.addr (setHeaderIsHole m b.addr 1) → SeesLeft m b none
  | merge (l : Chunk) : l.HeaderAt m → l.hole = true → b.addr = l.addr + l.size →
    UnifiesLeft b.addr (setHeaderIsHole m b.addr 1) → footerHeader m (b.addr - 8) = l.addr →
    SeesLeft m b (some l)

-- and what stands to the right
inductive SeesRight (m : Mem) (b : Chunk) : Option Chunk → Prop where
  | apart : ¬ UnifiesRight (b.addr + b.size) m → SeesRight m b none
  | merge (r : Chunk) : r.HeaderAt m → r.hole = true → r.addr = b.addr + b.size →
    SeesRight m b (some r)

def leftmost : Option Chunk → Chunk → Chunk
  | none, b => b
  | some l, _ => l

def rightmost : Option Chunk → Chunk → Chunk
  | none, b => b
  | some r, _ => r

variable {left right : Option Chunk}

-- the memory of the left merge: the hole it has made and where it has written
theorem unifyLeft_correct (sees : SeesLeft k.mem b left) (header : b.HeaderAt k.mem)
    (footer : b.FooterAt k.mem) (small : b.addr + b.size < 4294967296) :
    ∃ m1, unifyLeft b.addr (b.addr + b.size - 8) (setHeaderIsHole k.mem b.addr 1) =
        ((mergedHole left b none).addr, if left.isSome then 0 else 1, m1) ∧
      (mergedHole left b none).addr + (mergedHole left b none).size = b.addr + b.size ∧
      (mergedHole left b none).HeaderAt m1 ∧ (mergedHole left b none).FooterAt m1 ∧
      Set.EqOn m1 k.mem (mergedHole left b none).bytesᶜ := by
  have room := b.room
  cases sees with
  | apart apart =>
    obtain ⟨freed, flagged⟩ := setHeaderIsHole_correct header
    refine ⟨setHeaderIsHole k.mem b.addr 1, if_neg apart, rfl, freed, ?_, flagged.mono ?_⟩
    · have same : Set.EqOn (setHeaderIsHole k.mem b.addr 1) k.mem
          (Set.Ico (b.addr + b.size - 8) (b.addr + b.size - 8 + 8)) := by
        intro x within
        refine flagged fun here => ?_
        simp only [Set.mem_Ico, Set.mem_singleton_iff] at within here
        omega
      exact ⟨(footerMagic_congr same).trans footer.1, (footerHeader_congr same).trans footer.2⟩
    · intro x away here
      simp only [mergedHole, Chunk.freed, Chunk.bytes, Set.mem_compl_iff, Set.mem_Ico,
        Set.mem_singleton_iff] at away here
      omega
  | merge l leftHeader free next unifies points =>
    obtain ⟨m1, merged, joined, pointsLeft, magic, frame⟩ :=
      unifyLeft_merges leftHeader free header next small unifies points
    have stop : (l.join b).addr + (l.join b).size = b.addr + b.size := by
      simp only [Chunk.join]
      omega
    refine ⟨m1, merged, stop, joined, ⟨?_, ?_⟩, frame.mono ?_⟩
    · change footerMagic m1 ((l.join b).addr + (l.join b).size - 8) = heapMagic
      rw [stop, magic]
      exact footer.1
    · change footerHeader m1 ((l.join b).addr + (l.join b).size - 8) = l.addr
      rw [stop]
      exact pointsLeft
    · intro x away here
      simp only [mergedHole, Chunk.join, Chunk.bytes, sizeField, Set.mem_compl_iff, Set.mem_Ico,
        Set.mem_union] at away here
      have leftRoom := l.room
      omega

theorem mergedHole_hole (left : Option Chunk) (b : Chunk) (right : Option Chunk) :
    (mergedHole left b right).hole = true := by
  cases left <;> cases right <;> rfl

theorem mergedHole_right (left : Option Chunk) (b r : Chunk) :
    mergedHole left b (some r) = (mergedHole left b none).join r := by
  cases left <;> rfl

-- as long as there is no right merge nothing is written to the index
theorem unifyLeft_merged (sees : SeesLeft k.mem b left) (header : b.HeaderAt k.mem)
    (footer : b.FooterAt k.mem) (lower : k.heap.startAddress ≤ (leftmost left b).addr)
    (inside : b.addr + b.size ≤ k.heap.endAddress)
    (sound : IndexIn k.heap.index k.mem k.heap.startAddress k.heap.endAddress) :
    ∃ m1, unifyLeft b.addr (b.addr + b.size - 8) (setHeaderIsHole k.mem b.addr 1) =
        ((mergedHole left b none).addr, if left.isSome then 0 else 1, m1) ∧
      (mergedHole left b none).addr + (mergedHole left b none).size = b.addr + b.size ∧
      Set.EqOn m1 k.mem (mergedHole left b none).bytesᶜ ∧
      Merged k left b none k.heap.index m1 := by
  have small := sound.small
  have first : (mergedHole left b none).addr = (leftmost left b).addr := by
    cases left <;> rfl
  obtain ⟨m1, merged, stop, header1, footer1, frame1⟩ :=
    unifyLeft_correct sees header footer (by omega)
  have heapOnly : Set.EqOn m1 k.mem (k.heap.index.region k.heap.index.maxSize) := by
    apply sound.array_same
    refine frame1.mono (Set.compl_subset_compl.mpr ?_)
    rw [Chunk.bytes, stop]
    exact Set.Ico_subset_Ico (first ▸ lower) inside
  refine ⟨m1, merged, stop, frame1, ⟨rfl, sound.entries_same heapOnly, header1, fun _ => footer1,
    ?_, frame1.mono (Set.compl_subset_compl.mpr Set.subset_union_left), sound.congr heapOnly⟩⟩
  intro r none
  cases none

theorem unifyRight_merged {m1 : Mem} (merged : Merged k left b none k.heap.index m1)
    (stop : (mergedHole left b none).addr + (mergedHole left b none).size = b.addr + b.size)
    (rightSame : Set.EqOn m1 k.mem r.bytes) (rightHeader : r.HeaderAt k.mem)
    (free : r.hole = true) (next : r.addr = b.addr + b.size)
    (lower : k.heap.startAddress ≤ (mergedHole left b none).addr)
    (upper : r.addr + r.size ≤ k.heap.endAddress)
    (nodup : (k.heap.index.entries k.mem).Nodup) (listed : r.addr ∈ k.heap.index.entries k.mem)
    (few : k.heap.index.size < 4294967296) :
    ∃ index m, unifyRight (mergedHole left b none).addr (b.addr + b.size - 8)
        { k with mem := m1 } = .ok (r.addr + r.size - 8, k.withIndex index m) ∧
      Merged k left b (some r) index m := by
  have entries1 : k.heap.index.entries m1 = k.heap.index.entries k.mem := merged.entries
  obtain ⟨index, m, joined, array, entries, header2, frame2, sound2⟩ :=
    unifyRight_merges (k := { k with mem := m1 }) merged.header (mergedHole_hole left b none)
      (rightHeader.congr rightSame) free (next.trans stop.symm) lower upper merged.sound
      (by rw [entries1]; exact nodup) (by rw [entries1]; exact listed) few
  change Set.EqOn m m1 (sizeField (mergedHole left b none).addr ∪
    k.heap.index.region k.heap.index.maxSize)ᶜ at frame2
  change index.entries m = (k.heap.index.entries m1).erase r.addr at entries
  have rightRoom := r.room
  have chunkRoom := (mergedHole left b none).room
  rw [stop] at joined
  refine ⟨index, m, joined, ⟨array, ?_, mergedHole_right left b r ▸ header2, by simp, ?_, ?_,
    sound2⟩⟩
  · rw [entries, entries1]
    exact (List.diff_cons _ [] r.addr).symm
  · intro r' same
    cases same
    refine Set.EqOn.trans (frame2.mono ?_) rightSame
    intro x within changed
    cases changed with
    | inl sized =>
      simp only [sizeField, Chunk.bytes, Set.mem_Ico] at within sized
      omega
    | inr array =>
      refine Set.disjoint_left.mp merged.sound.apart array ?_
      simp only [Chunk.bytes, Set.mem_Ico] at within ⊢
      omega
  · intro x away
    rw [mergedHole_right] at away
    simp only [Set.mem_compl_iff, Set.mem_union, not_or, Chunk.bytes, Chunk.join,
      Set.mem_Ico] at away
    rw [frame2, merged.frame]
    · simp only [Set.mem_compl_iff, Set.mem_union, Chunk.bytes, Set.mem_Ico, not_or]
      exact ⟨by omega, away.2⟩
    · simp only [Set.mem_compl_iff, Set.mem_union, sizeField, Set.mem_Ico, not_or]
      exact ⟨by omega, away.2⟩

theorem merges_correct (leftSees : SeesLeft k.mem b left) (rightSees : SeesRight k.mem b right)
    (header : b.HeaderAt k.mem) (footer : b.FooterAt k.mem)
    (lower : k.heap.startAddress ≤ (leftmost left b).addr)
    (upper : (rightmost right b).addr + (rightmost right b).size ≤ k.heap.endAddress)
    (sound : IndexIn k.heap.index k.mem k.heap.startAddress k.heap.endAddress)
    (nodup : (k.heap.index.entries k.mem).Nodup)
    (listed : ∀ r ∈ right, r.addr ∈ k.heap.index.entries k.mem)
    (few : k.heap.index.size < 4294967296) :
    ∃ m1 index m, unifyLeft b.addr (b.addr + b.size - 8) (setHeaderIsHole k.mem b.addr 1) =
        ((mergedHole left b right).addr, if left.isSome then 0 else 1, m1) ∧
      unifyRight (mergedHole left b right).addr (b.addr + b.size - 8) { k with mem := m1 } =
        .ok ((mergedHole left b right).addr + (mergedHole left b right).size - 8,
          k.withIndex index m) ∧
      Merged k left b right index m := by
  have small := sound.small
  have room := b.room
  have first : (mergedHole left b none).addr = (leftmost left b).addr := by
    cases left <;> rfl
  have inside : b.addr + b.size ≤ k.heap.endAddress := by
    cases rightSees with
    | apart _ => exact upper
    | merge r _ _ next =>
      have rightRoom := r.room
      change r.addr + r.size ≤ k.heap.endAddress at upper
      omega
  obtain ⟨m1, unified, stop, frame1, merged⟩ :=
    unifyLeft_merged leftSees header footer lower inside sound
  have above : Set.EqOn m1 k.mem (Set.Ici (b.addr + b.size)) := by
    intro x upper'
    refine frame1 fun within => ?_
    simp only [Chunk.bytes, stop, Set.mem_Ico, Set.mem_Ici] at within upper'
    omega
  cases rightSees with
  | apart apart =>
    have test : Word32.add (b.addr + b.size - 8) sizeofFooter = b.addr + b.size := by
      rw [sizeofFooter, Word32.add_of_lt (by omega)]
      omega
    have apart1 : ¬ UnifiesRight (Word32.add (b.addr + b.size - 8) sizeofFooter) m1 := by
      rw [test, UnifiesRight]
      have same : Set.EqOn m1 k.mem (Set.Ico (b.addr + b.size) (b.addr + b.size + 12)) :=
        above.mono Set.Ico_subset_Ici_self
      rw [headerMagic_congr same, headerIsHole_congr same]
      exact apart
    refine ⟨m1, k.heap.index, m1, unified, ?_, merged⟩
    rw [stop]
    exact unifyRight_keeps apart1
  | merge r rightHeader free next =>
    rw [mergedHole_right]
    have rightSame1 : Set.EqOn m1 k.mem r.bytes := by
      refine above.mono ?_
      intro x within
      simp only [Chunk.bytes, Set.mem_Ico, Set.mem_Ici] at within ⊢
      omega
    obtain ⟨index, m, joined, merged'⟩ := unifyRight_merged merged stop rightSame1 rightHeader free
      next (first ▸ lower) upper nodup (listed r rfl) few
    have stop' : ((mergedHole left b none).join r).addr +
        ((mergedHole left b none).join r).size = r.addr + r.size := by
      simp only [Chunk.join]
      omega
    refine ⟨m1, index, m, unified, ?_, merged'⟩
    rw [stop']
    exact joined

end GekonOS
