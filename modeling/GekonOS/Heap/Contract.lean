import GekonOS.Heap.Coalesce
import GekonOS.Heap.Resize

set_option autoImplicit false

namespace GekonOS

open ByteMemory Loop

-- the new size and the new footer of the hole that ends the heap
def resizeHole (header size : Nat) (m : Mem) : Mem :=
  let m := setHeaderSize m header size
  let footer := Word32.sub (Word32.add header (headerSize m header)) sizeofFooter
  let m := setFooterMagic m footer heapMagic
  setFooterHeader m footer header

section Steps

variable {kmallocInt : Kmalloc} {header footer newLength : Nat} {k k1 : Kernel}

theorem contractEnd_resizes (testHeader : Nat) {size : Nat}
    (last : Word32.add footer sizeofFooter = k.heap.endAddress)
    (contracted : contract kmallocInt (Word32.sub header k.heap.startAddress) k =
      .ok (newLength, k1))
    (left : Word32.sub (headerSize k1.mem header)
      (Word32.sub (Word32.sub k.heap.endAddress k.heap.startAddress) newLength) = size)
    (positive : size > 0) :
    contractEnd kmallocInt header footer testHeader k =
      .ok { k1 with mem := resizeHole header size k1.mem } := by
  unfold contractEnd
  rw [if_pos last]
  change (contract kmallocInt (Word32.sub header k.heap.startAddress) k >>= _) = _
  rw [contracted, ok_bind]
  change (ite (Word32.sub (headerSize k1.mem header)
    (Word32.sub (Word32.sub k.heap.endAddress k.heap.startAddress) newLength) > 0) _ _) = _
  rw [left, if_pos positive]
  rfl

theorem contractEnd_drops {testHeader : Nat} (last : Word32.add footer sizeofFooter = k.heap.endAddress)
    (contracted : contract kmallocInt (Word32.sub header k.heap.startAddress) k =
      .ok (newLength, k1))
    (nothing : Word32.sub (headerSize k1.mem header)
      (Word32.sub (Word32.sub k.heap.endAddress k.heap.startAddress) newLength) = 0)
    (unlisted : testHeader ∉ k1.heap.index.entries k1.mem) :
    contractEnd kmallocInt header footer testHeader k = .ok k1 := by
  have missing : ¬ (k1.heap.index.entries k1.mem).idxOf testHeader < k1.heap.index.size := by
    rw [List.idxOf_eq_length unlisted, OrderedArray.length_entries]
    exact Nat.lt_irrefl _
  unfold contractEnd
  rw [if_pos last]
  change (contract kmallocInt (Word32.sub header k.heap.startAddress) k >>= _) = _
  rw [contracted, ok_bind]
  change (ite (Word32.sub (headerSize k1.mem header)
    (Word32.sub (Word32.sub k.heap.endAddress k.heap.startAddress) newLength) > 0) _ _) = _
  rw [nothing, if_neg (Nat.lt_irrefl 0)]
  rw [findInIndex_correct, ok_bind, if_neg missing]
  rfl

end Steps

variable {m : Mem} {c b r rest : Chunk} {k k2 : Kernel} {left right : Option Chunk}
  {pre : List Chunk}

theorem resizeHole_eq {header size footer : Nat} (small : size < 4294967296)
    (at_ : Word32.sub (Word32.add header size) sizeofFooter = footer) :
    resizeHole header size m = setFooterHeader (setFooterMagic (setHeaderSize m header size) footer
      heapMagic) footer header := by
  have sized : headerSize (setHeaderSize m header size) header = size :=
    (read32_write32 m (header + 8) size).trans (Nat.mod_eq_of_lt small)
  simp only [resizeHole, sized, at_]

-- writes the size field and the eight bytes of the footer
theorem resizeHole_frame {header size footer : Nat} (small : size < 4294967296)
    (at_ : Word32.sub (Word32.add header size) sizeofFooter = footer) :
    Set.EqOn (resizeHole header size m) m (sizeField header ∪ Set.Ico footer (footer + 8))ᶜ := by
  rw [resizeHole_eq small at_]
  intro x away
  simp only [sizeField, Set.mem_compl_iff, Set.mem_union, Set.mem_Ico, not_or] at away
  simp only [setHeaderSize, setFooterMagic, setFooterHeader]
  simp (disch := omega) only [write32_apply_ne]

theorem resizeHole_correct (free : rest.hole = true) (magic : headerMagic m rest.addr = heapMagic)
    (flag : headerIsHole m rest.addr = 1) (small : rest.addr + rest.size < 4294967296) :
    rest.HeaderAt (resizeHole rest.addr rest.size m) ∧
      rest.FooterAt (resizeHole rest.addr rest.size m) := by
  have room := rest.room
  have at_ : Word32.sub (Word32.add rest.addr rest.size) sizeofFooter =
      rest.addr + rest.size - 8 := by
    rw [sizeofFooter, Word32.add_of_lt small, Word32.sub_of_le (by omega) small]
  rw [resizeHole_eq (by omega) at_]
  simp only [setHeaderSize, setFooterMagic, setFooterHeader]
  refine ⟨⟨?_, ?_, ?_⟩, ?_, ?_⟩
  · unfold headerMagic at magic ⊢
    simp (disch := omega) only [read32_write32_ne, magic]
  · unfold headerIsHole at flag ⊢
    simp (disch := omega) only [read8_write32_ne, flag, free]
    rfl
  · simp (disch := omega) only [headerSize, read32_write32_ne, read32_write32, Nat.mod_eq_of_lt]
  · simp (disch := omega) only [footerMagic, read32_write32_ne, read32_write32]
    rfl
  · simp (disch := omega) only [footerHeader, read32_write32, Nat.mod_eq_of_lt]

/--
The contraction with a hole `c` that ends the heap. Whatever it writes is in the heap area; when a
chunk is left up to the least length it becomes the hole.
-/
theorem contractEnd_correct (kmallocInt : Kmalloc) (k2 : Kernel) {testHeader : Nat} (header : c.HeaderAt k2.mem)
    (free : c.hole = true) (stop : c.addr + c.size = k2.heap.endAddress)
    (lower : k2.heap.startAddress ≤ c.addr) (small : k2.heap.endAddress < 4294967296)
    (least : heapMinSize ≤ k2.heap.endAddress - k2.heap.startAddress)
    (mapped : Mapped k2 k2.heap.endAddress)
    (unlisted : testHeader ∉ k2.heap.index.entries k2.mem) :
    ∃ k3, contractEnd kmallocInt c.addr (c.addr + c.size - 8) testHeader k2 = .ok k3 ∧
      k3.heap = { k2.heap with endAddress :=
        k2.heap.startAddress + contractedLength (c.addr - k2.heap.startAddress) } ∧
      k3.directory = k2.directory ∧
      Set.EqOn k3.mem k2.mem (Set.Ico k2.heap.startAddress k2.heap.endAddress)ᶜ ∧
      ∀ rest : Chunk, rest.hole = true → rest.addr = c.addr →
        rest.addr + rest.size = k2.heap.startAddress + heapMinSize →
        rest.HeaderAt k3.mem ∧ rest.FooterAt k3.mem ∧
          Set.EqOn k3.mem k2.mem (Set.Ico k2.heap.startAddress c.addr) := by
  have room := c.room
  have minimum : heapMinSize = 458752 := rfl
  have offset : Word32.sub c.addr k2.heap.startAddress = c.addr - k2.heap.startAddress :=
    Word32.sub_of_le lower (by omega)
  have shrinks : c.addr - k2.heap.startAddress < k2.heap.endAddress - k2.heap.startAddress := by
    omega
  obtain ⟨k1, only, contracted⟩ := contract_correct kmallocInt shrinks small least mapped
  have atLeast := le_contractedLength (c.addr - k2.heap.startAddress)
  have within := contractedLength_le (Nat.le_of_lt shrinks) least
  have low : c.addr - k2.heap.startAddress < heapMinSize →
      contractedLength (c.addr - k2.heap.startAddress) = heapMinSize :=
    fun short => contractedLength_low (Nat.le_of_lt short)
  generalize contractedLength (c.addr - k2.heap.startAddress) = length at *
  rw [← offset] at contracted
  have last : Word32.add (c.addr + c.size - 8) sizeofFooter = k2.heap.endAddress := by
    rw [sizeofFooter, Word32.add_of_lt (by omega)]
    omega
  have total : Word32.sub k2.heap.endAddress k2.heap.startAddress =
      k2.heap.endAddress - k2.heap.startAddress := Word32.sub_of_le (by omega) small
  obtain ⟨frames, pages, rfl⟩ := only
  obtain ⟨size, left⟩ : ∃ size, Word32.sub c.size (Word32.sub (k2.heap.endAddress -
    k2.heap.startAddress) length) = size := ⟨_, rfl⟩
  have size32 : size < 4294967296 := left ▸ Word32.sub_lt _ _
  -- the size may wrap, but where the hole would end does not
  have ends : Word32.add c.addr size = k2.heap.startAddress + length := by
    rw [← left, Word32.sub_of_le within (by omega)]
    unfold Word32.add Word32.sub
    omega
  by_cases positive : size > 0
  · have resized := contractEnd_resizes testHeader last contracted
      (by rw [total, show headerSize _ c.addr = c.size from header.2.2]; exact left) positive
    have footer : Word32.sub (Word32.add c.addr size) sizeofFooter =
        k2.heap.startAddress + length - 8 := by
      rw [ends, sizeofFooter, Word32.sub_of_le (by omega) (by omega)]
    have frame := resizeHole_frame (m := k2.mem) size32 footer
    refine ⟨_, resized, rfl, rfl, frame.mono ?_, ?_⟩
    · intro x outside changed
      simp only [sizeField, Set.mem_compl_iff, Set.mem_Ico, Set.mem_union] at outside changed
      omega
    · intro rest restFree start restEnd
      have restRoom := rest.room
      have length_eq := low (by omega)
      have size_eq : size = rest.size := by
        rw [← left, Word32.sub_of_le within (by omega), Word32.sub_of_le (by omega) (by omega)]
        omega
      have flag : headerIsHole k2.mem rest.addr = 1 := by
        rw [start, header.2.1, free]
        rfl
      obtain ⟨header', footer'⟩ := resizeHole_correct restFree (start ▸ header.1) flag
        (by omega)
      rw [start, ← size_eq] at header' footer'
      refine ⟨header', footer', frame.mono ?_⟩
      intro x inside changed
      simp only [sizeField, Set.mem_Ico, Set.mem_union] at inside changed
      omega
  · have zero : size = 0 := by omega
    have dropped := contractEnd_drops last contracted
      (by rw [total, show headerSize _ c.addr = c.size from header.2.2, left, zero]) unlisted
    refine ⟨_, dropped, rfl, rfl, Set.eqOn_refl _ _, ?_⟩
    intro rest restFree start restEnd
    have restRoom := rest.room
    rw [zero] at ends
    unfold Word32.add at ends
    omega

/-! ## The block whose merged hole ends the heap -/

def Tagged (_ : Chunk) : Prop := True

/--
What `free` shall do at the end of the heap: the heap is well-formed up to its new end, and the
merged hole ends there or lies beyond.
-/
def Contracts (kmallocInt : Kmalloc) (k : Kernel) (pre : List Chunk) (left : Option Chunk)
    (b : Chunk) (right : Option Chunk) : Prop :=
  ∃ k', free kmallocInt (b.addr + 12) k = .ok k' ∧
    k'.heap.endAddress % 4096 = 0 ∧ k'.heap.endAddress ≤ k.heap.endAddress ∧
    ((∃ rest : Chunk, rest.hole = true ∧ rest.addr = (mergedHole left b right).addr ∧
        rest.addr + rest.size = k'.heap.endAddress ∧ WellFormed Tagged k' (pre ++ [rest])) ∨
      k'.heap.endAddress ≤ (mergedHole left b right).addr ∧
        ∃ kept, kept <+: pre ∧ WellFormed Tagged k' kept)

/-- The condition on the block: where the merged hole starts and what `free` takes for neighbours. -/
structure Contractible (k : Kernel) (pre : List Chunk) (left : Option Chunk) (b : Chunk)
    (right : Option Chunk) : Prop where
  aligned : k.heap.startAddress % 4096 = 0
  low : (leftmost left b).addr - k.heap.startAddress + 20 ≤ heapMinSize
  noFooter : pre = [] → left = none →
    ¬ UnifiesLeft b.addr (setHeaderIsHole k.mem b.addr 1)
  noHeader : right = none → ¬ UnifiesRight k.heap.endAddress k.mem
  room : left = none → right = none → k.heap.index.size < k.heap.index.maxSize

-- where the heap ends once it is contracted for `c`
def contractedEnd (k : Kernel) (c : Chunk) : Nat :=
  k.heap.startAddress + contractedLength (c.addr - k.heap.startAddress)

variable {index : OrderedArray}

-- what comes behind the block is not in the index any more
theorem Merged.unlisted (merged : Merged k left b right index m)
    (wf : WellFormed Tagged k (around pre left b right [])) :
    b.addr + b.size ∉ index.entries m := by
  rw [merged.entries]
  cases right with
  | none =>
    intro member
    have inside := wf.indexIn.inside _ member
    have stop : b.addr + b.size = k.heap.endAddress := wf.around.after.tiles
    omega
  | some r =>
    have next := (wf.around.rightAt r rfl).2.2
    rw [← next]
    change r.addr ∉ (k.heap.index.entries k.mem).diff [r.addr]
    rw [List.diff_cons, List.diff_nil]
    exact wf.nodup.not_mem_erase

theorem free_contracted (kmallocInt : Kmalloc)
    (wf : WellFormed Tagged k (around pre left b right []))
    (beside : Beside pre left right []) (least : heapMinSize ≤ k.heap.endAddress -
      k.heap.startAddress) (mapped : Mapped k k.heap.endAddress)
    (leftSees : SeesLeft k.mem b left) (rightSees : SeesRight k.mem b right) :
    ∃ index m k3, Merged k left b right index m ∧
      free kmallocInt (b.addr + 12) k = (if (if left.isSome then 0 else 1) = 1 then
        insertOrderedArray (mergedHole left b right).addr k3.heap.index k3.mem >>=
          fun r => .ok (k3.withIndex r.1 r.2)
        else .ok k3) ∧
      k3.heap = { k.heap with
        index := index, endAddress := contractedEnd k (mergedHole left b right) } ∧
      k3.directory = k.directory ∧
      Set.EqOn k3.mem m (Set.Ico k.heap.startAddress k.heap.endAddress)ᶜ ∧
      ∀ rest : Chunk, rest.hole = true → rest.addr = (mergedHole left b right).addr →
        rest.addr + rest.size = k.heap.startAddress + heapMinSize →
        rest.HeaderAt k3.mem ∧ rest.FooterAt k3.mem ∧
          Set.EqOn k3.mem m (Set.Ico k.heap.startAddress (mergedHole left b right).addr) := by
  have at_ := wf.around
  obtain ⟨lower, leftOf, rightOf, upper⟩ := at_.bounds
  have small := wf.small
  have stop := at_.merged_end
  have last : (rightmost right b).addr + (rightmost right b).size = k.heap.endAddress :=
    at_.after.tiles
  have footer : b.FooterAt k.mem := at_.footer trivial
  obtain ⟨m1, index, m, unified, joined, merged⟩ :=
    wf.merges beside.rightHole footer leftSees rightSees
  obtain ⟨k3, contracted, heap, tables, frame, rests⟩ := contractEnd_correct kmallocInt
    (k.withIndex index m) merged.header (mergedHole_hole left b right) (stop.trans last)
    (by rw [mergedHole_addr]; exact lower) small least mapped (merged.unlisted wf)
  exact ⟨index, m, k3, merged,
    free_merges at_.header footer (by omega) unified joined contracted, heap, tables, frame,
    rests⟩

theorem contractedEnd_low (low : (leftmost left b).addr - k.heap.startAddress + 20 ≤ heapMinSize) :
    contractedEnd k (mergedHole left b right) = k.heap.startAddress + heapMinSize := by
  rw [contractedEnd, mergedHole_addr, contractedLength_low (by omega)]

theorem Merged.entries_perm (merged : Merged k left b right index m)
    (wf : WellFormed Tagged k (around pre left b right [])) (used : b.hole = false)
    (beside : Beside pre left right []) :
    (index.entries m).Perm (holeAddrs (pre ++ left.toList)) := by
  have perm := entries_diff used beside.rightHole wf.entries
  rw [List.append_nil] at perm
  rw [merged.entries]
  exact perm

variable {kmallocInt : Kmalloc} {k3 k' : Kernel}

theorem contracted_listed
    (wf : WellFormed Tagged k (around pre left b right [])) (used : b.hole = false)
    (beside : Beside pre left right []) (merged : Merged k left b right index m)
    (freed : free kmallocInt (b.addr + 12) k = (if (if left.isSome then 0 else 1) = 1 then
        insertOrderedArray (mergedHole left b right).addr k3.heap.index k3.mem >>=
          fun r => .ok (k3.withIndex r.1 r.2)
        else .ok k3))
    (heap : k3.heap = { k.heap with
      index := index, endAddress := contractedEnd k (mergedHole left b right) })
    (frame : Set.EqOn k3.mem m (Set.Ico k.heap.startAddress k.heap.endAddress)ᶜ)
    (result : free kmallocInt (b.addr + 12) k = .ok k') :
    k'.heap.endAddress = contractedEnd k (mergedHole left b right) ∧
      (mergedHole left b right).addr ∈ k'.heap.index.entries k'.mem ∧
      k'.heap.index.maxSize = k.heap.index.maxSize ∧
      (left = none → k'.heap.index.size = index.size + 1) := by
  have at_ := wf.around
  obtain ⟨lower, leftOf, rightOf, upper⟩ := at_.bounds
  have small := wf.small
  have room := b.room
  have first := mergedHole_addr left b right
  have capacity : index.maxSize = k.heap.index.maxSize := by rw [merged.array]
  rw [freed] at result
  cases left with
  | none =>
    have known : k3.heap.index.lessThan = some headerTLessThan := by
      rw [heap]
      exact merged.sound.lessThan
    obtain ⟨m', inserted, entries, -⟩ := insertOrderedArray_correct k3.mem known
      (show (mergedHole none b right).addr < 4294967296 by omega)
    rw [Option.isSome_none, if_neg Bool.false_ne_true, if_pos rfl, inserted] at result
    cases result
    refine ⟨congrArg Heap.endAddress heap, ?_, ?_, fun _ => ?_⟩
    · change _ ∈ ({ k3.heap.index with size := k3.heap.index.size + 1 } : OrderedArray).entries m'
      rw [entries, List.mem_orderedInsert]
      exact Or.inl rfl
    · change k3.heap.index.maxSize = _
      rw [heap]
      exact capacity
    · change k3.heap.index.size + 1 = _
      rw [heap]
  | some l =>
    cases result
    rw [heap]
    refine ⟨rfl, ?_, capacity, by simp⟩
    change _ ∈ index.entries k3.mem
    rw [merged.sound.entries_same (merged.sound.array_same frame),
      (merged.entries_perm wf used beside).mem_iff, first, mem_holeAddrs]
    exact ⟨l, by simp, beside.leftHole l rfl, rfl⟩

theorem contracts_needs
    (wf : WellFormed Tagged k (around pre left b right [])) (used : b.hole = false)
    (beside : Beside pre left right []) (least : heapMinSize ≤ k.heap.endAddress -
      k.heap.startAddress) (mapped : Mapped k k.heap.endAddress)
    (leftSees : SeesLeft k.mem b left) (rightSees : SeesRight k.mem b right)
    (contracts : Contracts kmallocInt k pre left b right) :
    k.heap.startAddress % 4096 = 0 ∧
      (leftmost left b).addr - k.heap.startAddress + 20 ≤ heapMinSize ∧
      (left = none → right = none → k.heap.index.size < k.heap.index.maxSize) := by
  have lower := wf.around.bounds.1
  have minimum : heapMinSize = 458752 := rfl
  have first := mergedHole_addr left b right
  obtain ⟨index, m, k3, merged, freed, heap, -, frame, -⟩ :=
    free_contracted kmallocInt wf beside least mapped leftSees rightSees
  obtain ⟨k', result, page, -, outcome⟩ := contracts
  obtain ⟨stop, listed, capacity, longer⟩ :=
    contracted_listed wf used beside merged freed heap frame result
  rw [contractedEnd] at stop
  have tight (cs : List Chunk) (wf' : WellFormed Tagged k' cs) (noLeft : left = none)
      (noRight : right = none) : k.heap.index.size < k.heap.index.maxSize := by
    have full := wf'.room
    rw [longer noLeft, capacity, merged.array, noRight] at full
    simp only [Option.toList_none, List.length_nil, Nat.sub_zero] at full
    omega
  cases outcome with
  | inl still =>
    obtain ⟨rest, -, start, ends, wf'⟩ := still
    have restRoom := rest.room
    have low : (mergedHole left b right).addr - k.heap.startAddress < heapMinSize := by
      by_contra high
      have shorter := contractedLength_le
        (Nat.le_refl ((mergedHole left b right).addr - k.heap.startAddress)) (Nat.le_of_not_lt high)
      omega
    rw [contractedLength_low (Nat.le_of_lt low)] at stop
    exact ⟨by omega, by omega, tight _ wf'⟩
  | inr beyond =>
    obtain ⟨below, kept, -, wf'⟩ := beyond
    have inside := wf'.indexIn.inside _ listed
    omega

-- the part of the merged hole below the least length
theorem exists_rest {c : Chunk} {hi : Nat} (room : c.addr + 20 ≤ hi) :
    ∃ rest : Chunk, rest.hole = true ∧ rest.addr = c.addr ∧ rest.addr + rest.size = hi :=
  ⟨{ addr := c.addr, size := hi - c.addr, hole := true, room := by omega }, rfl, rfl,
    show c.addr + (hi - c.addr) = hi by omega⟩

theorem Merged.layout_before (merged : Merged k left b right index m)
    (at_ : AroundAt Tagged k.mem k.heap.startAddress k.heap.endAddress pre left b right []) :
    Layout Tagged m k.heap.startAddress (leftmost left b).addr pre := by
  obtain ⟨-, leftOf, rightOf, upper⟩ := at_.bounds
  have room := b.room
  have apart := merged.sound.apart
  rw [merged.array] at apart
  refine at_.before.congr (merged.frame.mono ?_)
  intro x within changed
  cases changed with
  | inl inside =>
    simp only [Chunk.bytes, mergedHole_addr, Set.mem_Ico] at inside within
    omega
  | inr array =>
    refine Set.disjoint_left.mp apart array ?_
    simp only [Set.mem_Ico] at within ⊢
    omega

theorem Merged.indexIn_contracted (merged : Merged k left b right index m)
    (wf : WellFormed Tagged k (around pre left b right [])) (used : b.hole = false)
    (beside : Beside pre left right []) (least : heapMinSize ≤ k.heap.endAddress -
      k.heap.startAddress) (low : (leftmost left b).addr - k.heap.startAddress + 20 ≤ heapMinSize) :
    IndexIn index m k.heap.startAddress (k.heap.startAddress + heapMinSize) := by
  have lower := wf.around.bounds.1
  have below : k.heap.startAddress + heapMinSize ≤ k.heap.endAddress := by
    have minimum : heapMinSize = 458752 := rfl
    omega
  have small := wf.small
  refine ⟨merged.sound.lessThan, merged.sound.room,
    merged.sound.apart.mono_right (Set.Ico_subset_Ico_right below), by omega, ?_⟩
  intro h member
  rw [(merged.entries_perm wf used beside).mem_iff, mem_holeAddrs] at member
  obtain ⟨c, inList, -, rfl⟩ := member
  have room := c.room
  cases List.mem_append.mp inList with
  | inl earlier =>
    have bounds := wf.around.before.bounds earlier
    omega
  | inr beside' =>
    cases left with
    | none => cases beside'
    | some l =>
      cases List.mem_singleton.mp beside'
      simp only [leftmost] at lower low
      omega

theorem Contractible.sees (cond : Contractible k pre left b right)
    (wf : WellFormed Tagged k (around pre left b right [])) (beside : Beside pre left right []) :
    SeesLeft k.mem b left ∧ SeesRight k.mem b right := by
  have at_ := wf.around
  obtain ⟨lower, leftOf, rightOf, upper⟩ := at_.bounds
  refine ⟨at_.seesLeft beside (fun _ _ => trivial) (by omega) wf.small cond.noFooter,
    at_.seesRight beside ?_⟩
  intro noRight _
  subst noRight
  rw [show b.addr + b.size = k.heap.endAddress from at_.after.tiles]
  exact cond.noHeader rfl

-- in front of the hole nothing has changed since the merges
theorem Merged.layout_contracted (merged : Merged k left b right index m)
    (wf : WellFormed Tagged k (around pre left b right [])) {rest : Chunk} {m3 m' : Mem} {hi : Nat}
    (start : rest.addr = (mergedHole left b right).addr) (stop : rest.addr + rest.size = hi)
    (header : rest.HeaderAt m3) (footer : rest.FooterAt m3)
    (kept : Set.EqOn m3 m (Set.Ico k.heap.startAddress (mergedHole left b right).addr))
    (same : Set.EqOn m' m3 (Set.Ico k.heap.startAddress hi)) :
    Layout Tagged m' k.heap.startAddress hi (pre ++ [rest]) := by
  obtain ⟨lower, -, -, -⟩ := wf.around.bounds
  have first := mergedHole_addr left b right
  refine Layout.append.mpr ⟨(leftmost left b).addr, ?_, ?_⟩
  · rw [← first]
    refine Layout.congr (Layout.congr ?_ kept) (same.mono (Set.Ico_subset_Ico_right (by omega)))
    rw [first]
    exact merged.layout_before wf.around
  · have inside : Set.EqOn m' m3 rest.bytes :=
      same.mono (Set.Ico_subset_Ico (by omega) (by omega))
    exact Layout.singleton (by omega) (by omega) (header.congr inside)
      fun _ => footer.congr inside

-- the contraction writes below the old end, and in front of the hole nothing
theorem Merged.frame_contracted (merged : Merged k left b right index m)
    (wf : WellFormed Tagged k (around pre left b right [])) {m3 m' : Mem}
    (frame : Set.EqOn m3 m (Set.Ico k.heap.startAddress k.heap.endAddress)ᶜ)
    (kept : Set.EqOn m3 m (Set.Ico k.heap.startAddress (mergedHole left b right).addr))
    (outside : Set.EqOn m' m3 (index.region index.maxSize)ᶜ) :
    Set.EqOn m' k.mem ((mergedHole left b right).bytes ∪
      k.heap.index.region k.heap.index.maxSize)ᶜ := by
  have at_ := wf.around
  have last : (mergedHole left b right).addr + (mergedHole left b right).size =
      k.heap.endAddress := at_.merged_end.trans at_.after.tiles
  intro x away
  simp only [Chunk.bytes, Set.mem_compl_iff, Set.mem_union, Set.mem_Ico, not_or] at away
  have finished : m' x = m3 x := by
    apply outside
    rw [merged.region]
    exact away.2
  have contracted : m3 x = m x := by
    by_cases inside : k.heap.startAddress ≤ x ∧ x < k.heap.endAddress
    · exact kept ⟨inside.1, by omega⟩
    · exact frame inside
  refine finished.trans (contracted.trans (merged.frame ?_))
  simp only [Chunk.bytes, Set.mem_compl_iff, Set.mem_union, Set.mem_Ico, not_or]
  exact away

theorem Contractible.contracted (cond : Contractible k pre left b right) (kmallocInt : Kmalloc)
    (wf : WellFormed Tagged k (around pre left b right [])) (used : b.hole = false)
    (beside : Beside pre left right []) (least : heapMinSize ≤ k.heap.endAddress -
      k.heap.startAddress) (mapped : Mapped k k.heap.endAddress) :
    ∃ k' rest, free kmallocInt (b.addr + 12) k = .ok k' ∧ rest.hole = true ∧
      rest.addr = (mergedHole left b right).addr ∧
      k'.heap = { k.heap with
        index := { k.heap.index with size := k'.heap.index.size }
        endAddress := k.heap.startAddress + heapMinSize } ∧
      k'.directory = k.directory ∧
      k'.heap.index.entries k'.mem = relisted left (mergedHole left b right).addr k'.mem
        ((k.heap.index.entries k.mem).diff (right.toList.map Chunk.addr)) ∧
      WellFormed Tagged k' (pre ++ [rest]) ∧
      Set.EqOn k'.mem k.mem ((mergedHole left b right).bytes ∪
        k.heap.index.region k.heap.index.maxSize)ᶜ := by
  obtain ⟨lower, leftOf, rightOf, upper⟩ := wf.around.bounds
  have small := wf.small
  have minimum : heapMinSize = 458752 := rfl
  have first := mergedHole_addr left b right
  have low := cond.low
  obtain ⟨leftSees, rightSees⟩ := cond.sees wf beside
  obtain ⟨index, m, k3, merged, freed, heap, tables, frame, rests⟩ :=
    free_contracted kmallocInt wf beside least mapped leftSees rightSees
  rw [contractedEnd_low low] at heap
  obtain ⟨rest, free, start, stop⟩ : ∃ rest : Chunk, rest.hole = true ∧
      rest.addr = (mergedHole left b right).addr ∧
      rest.addr + rest.size = k.heap.startAddress + heapMinSize := exists_rest (by omega)
  obtain ⟨header, footer, kept⟩ := rests rest free start stop
  have array := merged.sound.array_same frame
  -- the index in the heap up to its new end
  have sound : IndexIn k3.heap.index k3.mem k.heap.startAddress
      (k.heap.startAddress + heapMinSize) := by
    rw [heap]
    exact (merged.indexIn_contracted wf used beside least low).congr array
  have capacity (noLeft : left = none) : k3.heap.index.size < k3.heap.index.maxSize := by
    rw [heap]
    exact merged.room wf beside.rightHole (cond.room noLeft)
  obtain ⟨index', m', done, sized, entries, outside, sound'⟩ :=
    finishFree_correct left sound capacity
      (show k.heap.startAddress ≤ (mergedHole left b right).addr by omega) (by omega)
  have layout : Layout Tagged m' k.heap.startAddress (k.heap.startAddress + heapMinSize)
      (pre ++ [rest]) :=
    merged.layout_contracted wf start stop header footer kept (sound.heap_same outside)
  have perm : (index'.entries m').Perm (holeAddrs (pre ++ [rest])) := by
    have listed : (index.entries k3.mem).Perm (holeAddrs (pre ++ left.toList ++ [])) := by
      rw [merged.sound.entries_same array, List.append_nil]
      exact merged.entries_perm wf used beside
    rw [entries, heap]
    refine (relisted_perm right beside.leftHole listed).trans ?_
    rw [List.append_nil, holeAddrs_append, holeAddrs_append,
      holeAddrs_cons_hole (mergedHole_hole left b right), holeAddrs_cons_hole free, start]
  have sized' : index' = { k.heap.index with size := index'.size } := by
    rw [heap] at sized
    change index' = { index with size := index'.size } at sized
    rw [merged.array] at sized
    exact sized
  have heap' : ({ k3.heap with index := index' } : Heap) = { k.heap with
      index := { k.heap.index with size := index'.size }
      endAddress := k.heap.startAddress + heapMinSize } := by
    rw [heap, ← sized']
  have listed : index'.entries m' = relisted left (mergedHole left b right).addr m'
      ((k.heap.index.entries k.mem).diff (right.toList.map Chunk.addr)) := by
    rw [entries, heap, ← merged.entries]
    change relisted left _ m' (index.entries k3.mem) = _
    rw [merged.sound.entries_same array]
  refine ⟨k3.withIndex index' m', rest, freed.trans done, free, start, heap', tables, listed, ?_, ?_⟩
  · have bounds : k3.heap.startAddress = k.heap.startAddress ∧
        k3.heap.endAddress = k.heap.startAddress + heapMinSize := by
      rw [heap]
      exact ⟨rfl, rfl⟩
    obtain ⟨bottom, top⟩ := bounds
    have full : index'.maxSize = k.heap.index.maxSize := by rw [sized']
    refine ⟨?_, perm, sound'.lessThan, sound'.room, full ▸ wf.positive, ?_, ?_⟩
    · change Layout Tagged m' k3.heap.startAddress k3.heap.endAddress _
      rw [bottom, top]
      exact layout
    · change Disjoint _ (Set.Ico k3.heap.startAddress k3.heap.endAddress)
      rw [bottom, top]
      exact sound'.apart
    · change k3.heap.endAddress < _
      omega
  · rw [show k3.heap.index = index by rw [heap]] at outside
    exact merged.frame_contracted wf frame kept outside

theorem Contractible.contracts (cond : Contractible k pre left b right)
    (wf : WellFormed Tagged k (around pre left b right [])) (used : b.hole = false)
    (beside : Beside pre left right []) (least : heapMinSize ≤ k.heap.endAddress -
      k.heap.startAddress) (mapped : Mapped k k.heap.endAddress) :
    Contracts kmallocInt k pre left b right := by
  have aligned := cond.aligned
  have minimum : heapMinSize = 458752 := rfl
  obtain ⟨k', rest, result, free, start, heap, -, -, wf', -⟩ :=
    cond.contracted kmallocInt wf used beside least mapped
  have stop : k'.heap.endAddress = k.heap.startAddress + heapMinSize := by
    rw [heap]
  have last : rest.addr + rest.size = k'.heap.endAddress :=
    (Layout.middle.mp wf'.layout).2.2.2.tiles
  have le := wf.le
  exact ⟨k', result, by omega, by omega, Or.inl ⟨rest, free, start, last, wf'⟩⟩

/-! ## A `free` that returns -/

section Returns

variable {p header footer header' footer' doAdd testHeader : Nat} {k4 : Kernel} {m1 : Mem}

theorem free_returns (nonzero : p ≠ 0) (header_eq : Word32.sub p sizeofHeader = header)
    (footer_eq : Word32.sub (Word32.add header (headerSize k.mem header)) sizeofFooter = footer)
    (headerMagicOk : headerMagic k.mem header = heapMagic)
    (footerMagicOk : footerMagic k.mem footer = heapMagic)
    (left : unifyLeft header footer (setHeaderIsHole k.mem header 1) = (header', doAdd, m1))
    (result : free kmallocInt p k = .ok k') :
    ∃ footer' k2 k3, unifyRight header' footer { k with mem := m1 } = .ok (footer', k2) ∧
      contractEnd kmallocInt header' footer' (Word32.add footer sizeofFooter) k2 = .ok k3 ∧
      (doAdd = 0 → k' = k3) := by
  cases right : unifyRight header' footer { k with mem := m1 } with
  | error halt =>
    rw [free_stuck nonzero header_eq footer_eq headerMagicOk footerMagicOk left right] at result
    cases result
  | ok joined =>
    obtain ⟨footer', k2⟩ := joined
    cases contracted : contractEnd kmallocInt header' footer' (Word32.add footer sizeofFooter) k2 with
    | error halt =>
      rw [free_stuck_end nonzero header_eq footer_eq headerMagicOk footerMagicOk left right
        contracted] at result
      cases result
    | ok k3 =>
      refine ⟨footer', k2, k3, rfl, contracted, fun kept => ?_⟩
      rw [free_steps nonzero header_eq footer_eq headerMagicOk footerMagicOk left right contracted,
        if_neg (by omega)] at result
      exact (Except.ok.inj result).symm

theorem unifyRight_returns (few : k.heap.index.size < 4294967296)
    (result : unifyRight header footer k = .ok (footer', k2)) :
    (¬ UnifiesRight (Word32.add footer sizeofFooter) k.mem ∧ footer' = footer ∧ k2 = k) ∨
      ∃ size index m, Word32.add footer sizeofFooter ∈
          k.heap.index.entries (setHeaderSize k.mem header size) ∧
        k2 = k.withIndex index m ∧ index.size + 1 = k.heap.index.size := by
  by_cases unifies : UnifiesRight (Word32.add footer sizeofFooter) k.mem
  · obtain ⟨size, sum⟩ : ∃ size, Word32.add (headerSize k.mem header)
      (headerSize k.mem (Word32.add footer sizeofFooter)) = size := ⟨_, rfl⟩
    unfold unifyRight at result
    simp -iota only [if_pos unifies, sum, findInIndex_correct, ok_bind] at result
    by_cases listed : (k.heap.index.entries (setHeaderSize k.mem header size)).idxOf
        (Word32.add footer sizeofFooter) < k.heap.index.size
    · obtain ⟨m, removed, -, -⟩ :=
        removeOrderedArray_correct (setHeaderSize k.mem header size) listed few
      rw [ASSERT_ok listed, ok_bind, removed, ok_bind] at result
      have same := Prod.mk.inj (Except.ok.inj result)
      refine Or.inr ⟨size, { k.heap.index with size := k.heap.index.size - 1 }, m, ?_,
        same.2.symm, ?_⟩
      · rw [← OrderedArray.length_entries (m := setHeaderSize k.mem header size)] at listed
        exact List.idxOf_lt_length_iff.mp listed
      · simp only
        omega
    · rw [ASSERT, if_neg listed] at result
      cases result
  · rw [unifyRight_keeps unifies] at result
    cases result
    exact Or.inl ⟨unifies, rfl, rfl⟩

theorem contractEnd_returns (empty : k2.heap.index.size = 0)
    (le : k2.heap.startAddress ≤ k2.heap.endAddress) (small : k2.heap.endAddress < 4294967296)
    (least : heapMinSize ≤ k2.heap.endAddress - k2.heap.startAddress)
    (mapped : Mapped k2 k2.heap.endAddress)
    (result : contractEnd kmallocInt header footer testHeader k2 = .ok k4) :
    k4.heap.index.size = 0 ∧ k4.heap.startAddress = k2.heap.startAddress ∧
      k4.heap.startAddress < k4.heap.endAddress := by
  have minimum : heapMinSize = 458752 := rfl
  by_cases last : Word32.add footer sizeofFooter = k2.heap.endAddress
  · cases contracted : contract kmallocInt (Word32.sub header k2.heap.startAddress) k2 with
    | error halt =>
      unfold contractEnd at result
      rw [if_pos last] at result
      change (contract kmallocInt (Word32.sub header k2.heap.startAddress) k2 >>= _) = _ at result
      rw [contracted] at result
      cases result
    | ok shrunk =>
      obtain ⟨newLength, k3⟩ := shrunk
      have shrinks := contract_shrinks contracted le small
      obtain ⟨k1, only, shrunk⟩ := contract_correct kmallocInt shrinks small least mapped
      have atLeast := le_contractedLength (Word32.sub header k2.heap.startAddress)
      by_cases positive : Word32.sub (headerSize k1.mem header)
          (Word32.sub (Word32.sub k2.heap.endAddress k2.heap.startAddress)
            (contractedLength (Word32.sub header k2.heap.startAddress))) > 0
      · rw [contractEnd_resizes testHeader last shrunk rfl positive] at result
        cases result
        rw [only.heap]
        exact ⟨empty, rfl, show k2.heap.startAddress < k2.heap.startAddress + _ by omega⟩
      · have nothing : k1.heap.index.entries k1.mem = [] := by
          rw [← List.length_eq_zero_iff, OrderedArray.length_entries, only.heap, empty]
        rw [contractEnd_drops last shrunk (Nat.eq_zero_of_not_pos positive)
          (by rw [nothing]; exact List.not_mem_nil)] at result
        cases result
        rw [only.heap]
        exact ⟨empty, rfl, show k2.heap.startAddress < k2.heap.startAddress + _ by omega⟩
  · rw [contractEnd_keeps last] at result
    cases result
    exact ⟨empty, rfl, by omega⟩

end Returns

/-! ## Bytes outside the heap area that pass for a neighbour -/

theorem unlisted_not_contracts (left : Option Chunk) (b : Chunk) (right : Option Chunk) (stop : k'.heap.startAddress < k'.heap.endAddress)
    (unlisted : (mergedHole left b right).addr ∉ k'.heap.index.entries k'.mem) :
    ¬ ((∃ rest : Chunk, rest.hole = true ∧ rest.addr = (mergedHole left b right).addr ∧
        rest.addr + rest.size = k'.heap.endAddress ∧ WellFormed Tagged k' ([] ++ [rest])) ∨
      k'.heap.endAddress ≤ (mergedHole left b right).addr ∧
        ∃ kept, kept <+: ([] : List Chunk) ∧ WellFormed Tagged k' kept) := by
  intro outcome
  cases outcome with
  | inl still =>
    obtain ⟨rest, free, start, -, wf⟩ := still
    exact unlisted (wf.mem_entries.mpr ⟨rest, by simp, free, start⟩)
  | inr beyond =>
    obtain ⟨-, kept, nothing, wf⟩ := beyond
    cases List.prefix_nil.mp nothing
    have tiled : k'.heap.startAddress = k'.heap.endAddress := wf.layout.tiles
    omega

-- the left merge with whatever header the word below the block points to
theorem unifyLeft_stray (unifies : UnifiesLeft b.addr (setHeaderIsHole m b.addr 1)) (f : Nat) :
    ∃ g v, unifyLeft b.addr f (setHeaderIsHole m b.addr 1) =
      (g, 0, setHeaderSize (setFooterHeader (setHeaderIsHole m b.addr 1) f g) g v) :=
  ⟨_, _, if_pos unifies⟩

theorem stray_entries (wf : WellFormed Tagged k [b, r]) (rightHole : r.hole = true) {g v : Nat} {m1 : Mem} (stray : m1 = setHeaderSize (setFooterHeader
      (setHeaderIsHole k.mem b.addr 1) (b.addr + b.size - 8) g) g v)
    (apart : ¬ UnifiesRight r.addr m1) : k.heap.index.entries m1 = k.heap.index.entries k.mem := by
  obtain ⟨start, header, -, behind⟩ := Layout.cons.mp wf.layout
  obtain ⟨next, headerR, -, stop⟩ := Layout.cons.mp behind
  have last : k.heap.startAddress + b.size + r.size = k.heap.endAddress := stop.tiles
  have room := b.room
  have rightRoom := r.room
  -- the store of the size has hit the header of the right hole
  have hit : r.addr < g + 12 ∧ g + 8 < r.addr + 5 := by
    by_contra missed
    refine apart ?_
    unfold UnifiesRight headerMagic headerIsHole
    rw [stray]
    simp only [setHeaderSize, setFooterHeader, setHeaderIsHole]
    simp (disch := omega) only [read32_write32_ne, read8_write32_ne, read32_write8_ne,
      read8_write8_ne]
    exact (unifiesRight_iff headerR).mpr rightHole
  have frame : Set.EqOn m1 k.mem (Set.Ico k.heap.startAddress k.heap.endAddress)ᶜ := by
    intro x outside
    simp only [Set.mem_compl_iff, Set.mem_Ico] at outside
    rw [stray]
    simp only [setHeaderSize, setFooterHeader, setHeaderIsHole]
    simp (disch := omega) only [write32_apply_ne, write8_apply_ne]
  exact wf.indexIn.entries_same (wf.indexIn.array_same frame)

theorem stray_not_contracts (wf : WellFormed Tagged k (around [] none b right []))
    (used : b.hole = false) (beside : Beside [] none right [])
    (least : heapMinSize ≤ k.heap.endAddress - k.heap.startAddress)
    (mapped : Mapped k k.heap.endAddress)
    (unifies : UnifiesLeft b.addr (setHeaderIsHole k.mem b.addr 1)) :
    ¬ Contracts kmallocInt k [] none b right := by
  rintro ⟨k', result, _, _, outcome⟩
  have at_ := wf.around
  have small := wf.small
  have le := wf.le
  have room := b.room
  obtain ⟨lower, leftOf, rightOf, upper⟩ := at_.bounds
  have footer : b.FooterAt k.mem := at_.footer trivial
  have first := mergedHole_addr none b right
  have start : k.heap.startAddress = b.addr := at_.before.tiles
  obtain ⟨nonzero, header_eq⟩ := free_header (b := b) (by omega)
  obtain ⟨g, v, unified⟩ := unifyLeft_stray unifies (b.addr + b.size - 8)
  obtain ⟨m1, stray⟩ : ∃ m1, setHeaderSize (setFooterHeader (setHeaderIsHole k.mem b.addr 1)
    (b.addr + b.size - 8) g) g v = m1 := ⟨_, rfl⟩
  rw [stray] at unified
  have few := wf.size_few
  have holes := wf.entries.length_eq
  rw [OrderedArray.length_entries] at holes
  obtain ⟨footer', k2, k3, joined, contracted, same⟩ := free_returns nonzero header_eq
    (free_footer at_.header (by omega)) at_.header.1 footer.1 unified result
  cases same rfl
  have test : Word32.add (b.addr + b.size - 8) sizeofFooter = b.addr + b.size := by
    rw [sizeofFooter, Word32.add_of_lt (by omega)]
    omega
  -- with an empty index the merged hole cannot be listed
  have emptied (same : k2.heap = { k.heap with index := k2.heap.index })
      (map : Mapped k2 k2.heap.endAddress) (empty : k2.heap.index.size = 0) : False := by
    obtain ⟨empty', start', nonempty⟩ := contractEnd_returns empty
      (by rw [same]; exact le) (by rw [same]; exact small) (by rw [same]; exact least) map
      contracted
    have nothing : k'.heap.index.entries k'.mem = [] := by
      rw [← List.length_eq_zero_iff, OrderedArray.length_entries, empty']
    exact unlisted_not_contracts _ _ _ nonempty (by rw [nothing]; exact List.not_mem_nil) outcome
  cases unifyRight_returns (by simp only; omega) joined with
  | inl kept =>
    obtain ⟨apart, rfl, rfl⟩ := kept
    cases right with
    | none =>
      refine emptied rfl mapped ?_
      rw [around, holeAddrs_append, Option.toList_none, List.append_nil, holeAddrs_nil,
        List.nil_append, holeAddrs_cons_block used] at holes
      exact holes
    | some r =>
      have next := (at_.rightAt r rfl).2.2
      have rightRoom := r.room
      rw [test, ← next] at apart
      have entries := stray_entries wf (beside.rightHole r rfl) stray.symm apart
      change r.addr + r.size ≤ k.heap.endAddress at upper
      rw [contractEnd_keeps (by rw [test]; change _ ≠ k.heap.endAddress; omega)] at contracted
      cases contracted
      refine unlisted_not_contracts none b (some r) ?_ ?_ outcome
      · change k.heap.startAddress < k.heap.endAddress
        omega
      change _ ∉ k.heap.index.entries m1
      rw [entries, wf.entries.mem_iff, first]
      intro listed
      rw [around, holeAddrs_append, holeAddrs_append, holeAddrs_cons_block used] at listed
      simp [holeAddrs, leftmost] at listed
      omega
  | inr merged =>
    obtain ⟨size, index, m, -, rfl, fewer⟩ := merged
    refine emptied rfl mapped ?_
    have atMost : k.heap.index.size ≤ 1 := by
      rw [holes, around, holeAddrs_append, holeAddrs_cons_block used, holeAddrs, holeAddrs]
      refine Nat.le_trans ?_ (show right.toList.length ≤ 1 by cases right <;> simp)
      simpa using List.length_filter_le _ _
    change index.size + 1 = k.heap.index.size at fewer
    change index.size = 0
    omega

theorem headerBehind_not_contracts (wf : WellFormed Tagged k (around pre left b none []))
    (leftSees : SeesLeft k.mem b left) (unifies : UnifiesRight k.heap.endAddress k.mem) :
    ¬ Contracts kmallocInt k pre left b none := by
  rintro ⟨k', result, _⟩
  have at_ := wf.around
  have small := wf.small
  have le := wf.le
  have room := b.room
  have few := wf.size_few
  obtain ⟨lower, leftOf, rightOf, upper⟩ := at_.bounds
  have footer : b.FooterAt k.mem := at_.footer trivial
  have first := mergedHole_addr left b none
  have last : b.addr + b.size = k.heap.endAddress := at_.after.tiles
  obtain ⟨nonzero, header_eq⟩ := free_header (b := b) (by omega)
  obtain ⟨m1, unified, stop, -, -, frame⟩ :=
    unifyLeft_correct leftSees at_.header footer (by omega)
  obtain ⟨footer', k2, k3, joined, -, -⟩ := free_returns nonzero header_eq
    (free_footer at_.header (by omega)) at_.header.1 footer.1 unified result
  have test : Word32.add (b.addr + b.size - 8) sizeofFooter = k.heap.endAddress := by
    rw [sizeofFooter, Word32.add_of_lt (by omega)]
    omega
  have same : Set.EqOn m1 k.mem (Set.Ico k.heap.endAddress (k.heap.endAddress + 12)) := by
    refine frame.mono ?_
    intro x behind inside
    simp only [Chunk.bytes, Set.mem_Ico] at behind inside
    omega
  cases unifyRight_returns (by simp only; omega) joined with
  | inl kept =>
    rw [test] at kept
    refine kept.1 ?_
    unfold UnifiesRight
    rw [headerMagic_congr same, headerIsHole_congr same]
    exact unifies
  | inr merged =>
    obtain ⟨size, -, -, member, -⟩ := merged
    rw [test] at member
    have written : Set.EqOn (setHeaderSize m1 (mergedHole left b none).addr size) k.mem
        (Set.Ico k.heap.startAddress k.heap.endAddress)ᶜ := by
      intro x outside
      simp only [Set.mem_compl_iff, Set.mem_Ico] at outside
      have chunkRoom := (mergedHole left b none).room
      rw [setHeaderSize, write32_apply_ne _ _ (by omega), frame]
      simp only [Chunk.bytes, Set.mem_compl_iff, Set.mem_Ico]
      omega
    change _ ∈ k.heap.index.entries _ at member
    rw [wf.indexIn.entries_same (wf.indexIn.array_same written)] at member
    have inside := wf.indexIn.inside _ member
    omega

/--
`free` at the end of the heap leaves it well-formed if and only if the area starts on a page, the
merged hole starts at least 20 bytes below the least length, nothing outside the area passes for a
neighbour, and the index has room for the hole.
-/
theorem free_contracts_iff (kmallocInt : Kmalloc) (k : Kernel) (pre : List Chunk)
    (left : Option Chunk) (b : Chunk) (right : Option Chunk)
    (wf : WellFormed Tagged k (around pre left b right [])) (used : b.hole = false)
    (beside : Beside pre left right [])
    (least : heapMinSize ≤ k.heap.endAddress - k.heap.startAddress)
    (mapped : Mapped k k.heap.endAddress) :
    Contracts kmallocInt k pre left b right ↔ Contractible k pre left b right := by
  have at_ := wf.around
  obtain ⟨lower, leftOf, rightOf, upper⟩ := at_.bounds
  constructor
  · intro contracts
    have noFooter : pre = [] → left = none →
        ¬ UnifiesLeft b.addr (setHeaderIsHole k.mem b.addr 1) := by
      intro none noLeft unifies
      subst none noLeft
      exact stray_not_contracts wf used beside least mapped unifies contracts
    have leftSees : SeesLeft k.mem b left :=
      at_.seesLeft beside (fun _ _ => trivial) (by omega) wf.small noFooter
    have noHeader : right = none → ¬ UnifiesRight k.heap.endAddress k.mem := by
      intro noRight unifies
      subst noRight
      exact headerBehind_not_contracts wf leftSees unifies contracts
    have rightSees : SeesRight k.mem b right := by
      refine at_.seesRight beside ?_
      intro noRight _
      subst noRight
      rw [show b.addr + b.size = k.heap.endAddress from at_.after.tiles]
      exact noHeader rfl
    obtain ⟨aligned, low, room⟩ :=
      contracts_needs wf used beside least mapped leftSees rightSees contracts
    exact ⟨aligned, low, noFooter, noHeader, room⟩
  · exact fun cond => cond.contracts wf used beside least mapped

-- the index stands below the chunks, and all page tables exist
def endKernel (cs : List Chunk) (length : Nat) : Kernel :=
  let holes := holeAddrs cs
  let tagged := cs.foldr Chunk.write Kernel.boot.mem
  { Kernel.boot with
    mem := holes.zipIdx.foldl (fun m a => write32 m (4096 + 4 * a.2) a.1) tagged
    heap := { index := { array := 4096, size := holes.length, maxSize := 3,
                         lessThan := some headerTLessThan },
              startAddress := 0x100000, endAddress := 0x100000 + length, maxAddress := 0x200000,
              supervisor := 0, readonly := 0 }
    directory := { tablesPhysical := fun _ => 7, tables := fun _ => 4096, physicalAddr := 0 } }

theorem endKernel_mapped (cs : List Chunk) (length limit : Nat) :
    Mapped (endKernel cs length) limit :=
  fun _ _ _ => show 7 &&& 1 ≠ 0 ∧ 4096 ≠ 0 by decide

theorem endKernel_apart (cs : List Chunk) (length : Nat) :
    Disjoint ((endKernel cs length).heap.index.region (endKernel cs length).heap.index.maxSize)
      (Set.Ico (endKernel cs length).heap.startAddress
        (endKernel cs length).heap.endAddress) := by
  rw [Set.disjoint_left]
  intro a inArray inHeap
  simp only [OrderedArray.region, endKernel, Set.mem_Ico] at inArray inHeap
  omega

def smallBlock : Chunk :=
  { addr := 0x100000, size := 40, hole := false, room := Nat.le_add_left 20 20 }

def restHole : Chunk :=
  { addr := 0x100000 + 40, size := 0x70000 - 40, hole := true, room := by decide }

theorem endKernel_smallBlock :
    WellFormed Tagged (endKernel [smallBlock, restHole] 0x70000) [smallBlock, restHole] := by
  refine ⟨⟨⟨rfl, by decide, rfl, by decide, rfl⟩, by decide +kernel, ?_⟩, ?_, rfl, by decide,
    by decide, endKernel_apart _ _, by decide⟩
  · have all : ∀ c ∈ [smallBlock, restHole],
        c.FooterAt (endKernel [smallBlock, restHole] 0x70000).mem := by
      decide +kernel
    exact fun c member _ => all c member
  · decide +kernel

set_option maxRecDepth 100000 in
-- the block and a hole behind it that ends the heap
theorem free_contracts_iff_right : Contracts (GekonOS.kmallocInt 0)
    (endKernel [smallBlock, restHole] 0x70000) [] none smallBlock (some restHole) :=
  (free_contracts_iff (GekonOS.kmallocInt 0) (endKernel [smallBlock, restHole] 0x70000) [] none
    smallBlock (some restHole) endKernel_smallBlock rfl
    ⟨by simp, by simp, by simp [restHole], by simp⟩
    (show 0x70000 ≤ 0x100000 + 0x70000 - 0x100000 by decide) (endKernel_mapped _ _ _)).mpr
    ⟨by decide, by decide, fun _ _ => by decide +kernel, by simp, by simp⟩

def largeBlock : Chunk := { addr := 0x100000, size := 0x71000, hole := false, room := by decide }

def lastBlock : Chunk :=
  { addr := 0x100000 + 0x71000, size := 0x1000, hole := false, room := by decide }

theorem endKernel_largeBlock :
    WellFormed Tagged (endKernel [largeBlock, lastBlock] 0x72000) [largeBlock, lastBlock] := by
  refine ⟨⟨⟨rfl, by decide, rfl, by decide, rfl⟩, by decide +kernel, ?_⟩, ?_, rfl, by decide,
    by decide, endKernel_apart _ _, by decide⟩
  · have all : ∀ c ∈ [largeBlock, lastBlock],
        c.FooterAt (endKernel [largeBlock, lastBlock] 0x72000).mem := by
      decide +kernel
    exact fun c member _ => all c member
  · decide +kernel

set_option maxRecDepth 100000 in
/-- Beyond the least length the heap ends below the header that goes into the index. -/
theorem last_block_listed :
    WellFormed Tagged (endKernel [largeBlock, lastBlock] 0x72000) [largeBlock, lastBlock] ∧
      Beside [largeBlock] none none [] ∧
      Mapped (endKernel [largeBlock, lastBlock] 0x72000) (0x100000 + 0x72000) ∧
      ¬ Contracts (GekonOS.kmallocInt 0) (endKernel [largeBlock, lastBlock] 0x72000) [largeBlock]
        none lastBlock none := by
  refine ⟨endKernel_largeBlock, ⟨by simp, by simp [largeBlock], by simp, by simp⟩,
    endKernel_mapped _ _ _, ?_⟩
  rintro ⟨k', result, _, _, outcome⟩
  have found : (free (GekonOS.kmallocInt 0) (lastBlock.addr + 12)
      (endKernel [largeBlock, lastBlock] 0x72000)).map
        (fun k => (k.heap.endAddress, k.heap.index.entries k.mem)) =
      .ok (0x100000 + 0x70000, [0x100000 + 0x71000]) := by
    decide +kernel
  rw [result] at found
  obtain ⟨stop, listed⟩ := Prod.mk.inj (Except.ok.inj found)
  have inside (cs : List Chunk) (wf : WellFormed Tagged k' cs) : False := by
    have bounds := wf.indexIn.inside (0x100000 + 0x71000) (by rw [listed]; decide)
    omega
  cases outcome with
  | inl still =>
    obtain ⟨rest, -, -, -, wf⟩ := still
    exact inside _ wf
  | inr beyond =>
    obtain ⟨-, kept, -, wf⟩ := beyond
    exact inside _ wf

end GekonOS
