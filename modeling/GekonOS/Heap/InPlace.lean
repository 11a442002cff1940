import GekonOS.Heap.Carve
import GekonOS.Kernel.Mm

set_option autoImplicit false

namespace GekonOS

open ByteMemory Loop

theorem perm_foldr_orderedInsert (m : Mem) (items xs : List Nat) :
    (items.foldr (fun a => List.orderedInsert (sizeLe m) a) xs).Perm (items ++ xs) := by
  induction items with
  | nil => exact List.Perm.refl _
  | cons a items ih => exact (List.perm_orderedInsert (sizeLe m) a _).trans (ih.cons a)

theorem remainderOf_holes (pos total size : Nat) :
    ∀ c ∈ remainderOf pos total size, c.hole = true := by
  unfold remainderOf
  split
  next => simp
  next => simp

theorem remainderOf_length (pos total size : Nat) : (remainderOf pos total size).length ≤ 1 := by
  unfold remainderOf
  split
  next => exact Nat.le_refl 1
  next => exact Nat.zero_le 1

variable {tagged : Chunk → Prop} {k : Kernel} {cs pre post : List Chunk} {hole : Chunk}
  {size iterator : Nat}

theorem WellFormed.withIndex {index : OrderedArray} {m : Mem} (wf : WellFormed tagged k cs)
    {cs' : List Chunk} (same : index.maxSize = k.heap.index.maxSize)
    (layout : Layout tagged m k.heap.startAddress k.heap.endAddress cs')
    (entries : (index.entries m).Perm (holeAddrs cs'))
    (sound : IndexIn index m k.heap.startAddress k.heap.endAddress) :
    WellFormed tagged (k.withIndex index m) cs' :=
  ⟨layout, entries, sound.lessThan, sound.room, same ▸ wf.positive, sound.apart, sound.small⟩

theorem WellFormed.entries_erase (wf : WellFormed tagged k (pre ++ hole :: post))
    (free : hole.hole = true) :
    ((k.heap.index.entries k.mem).erase hole.addr).Perm (holeAddrs (pre ++ post)) := by
  have perm := wf.entries
  rw [holeAddrs_append, holeAddrs_cons_hole free] at perm
  have first := (perm.trans List.perm_middle).erase hole.addr
  rw [List.erase_cons_head] at first
  rw [holeAddrs_append]
  exact first

theorem WellFormed.index_lt_noHole (wf : WellFormed tagged k cs) :
    k.heap.index.size < noHole := by
  have few := wf.size_few
  have small := wf.small
  unfold noHole
  omega

/-- The chunks that `alloc` leaves where it has found `hole`. -/
def carved (hole : Chunk) (size : Nat) (fits : size + 20 ≤ hole.size) : List Chunk :=
  blockOf hole.addr (blockLength hole.size (size + 20))
      ((Nat.le_add_left 20 size).trans (blockLength_le fits).1) ::
    remainderOf hole.addr hole.size (blockLength hole.size (size + 20))

theorem WellFormed.recut {tagged' : Chunk → Prop} {m : Mem} {inner : List Chunk}
    (wf : WellFormed tagged k (pre ++ hole :: post))
    (tags : ∀ c ∈ pre ++ post, tagged' c → tagged c)
    (cut : Layout tagged' m hole.addr (hole.addr + hole.size) inner)
    (changed : Set.EqOn m k.mem (hole.bytes ∪ k.heap.index.region k.heap.index.maxSize)ᶜ) :
    Layout tagged' m k.heap.startAddress k.heap.endAddress (pre ++ inner ++ post) := by
  obtain ⟨before, -, -, after⟩ := Layout.middle.mp wf.layout
  have before' : Layout tagged' k.mem k.heap.startAddress hole.addr pre :=
    ⟨before.tiles, before.headers, fun c member tag =>
      before.footers c member (tags c (List.mem_append_left _ member) tag)⟩
  have after' : Layout tagged' k.mem (hole.addr + hole.size) k.heap.endAddress post :=
    ⟨after.tiles, after.headers, fun c member tag =>
      after.footers c member (tags c (List.mem_append_right _ member) tag)⟩
  refine before'.splice after' cut (changed.mono ?_)
  rintro x ⟨inside, off⟩ written
  cases written with
  | inl inHole => exact off inHole
  | inr inArray => exact Set.disjoint_left.mp wf.apart inArray inside

theorem takeHole_correct (wf : WellFormed tagged k (pre ++ hole :: post))
    (free : hole.hole = true) (within : iterator < k.heap.index.size)
    (here : k.heap.index.slot k.mem iterator = hole.addr) (fits : size + 20 ≤ hole.size)
    {pageAlign : Nat} (plain : ¬ (pageAlign ≠ 0 ∧ hole.addr &&& 0xFFFFF000 ≠ 0)) :
    ∃ index m, takeHole size (size + 20) pageAlign iterator k =
        .ok (hole.addr + 12, k.withIndex index m) ∧
      index = { k.heap.index with size := index.size } ∧
      index.entries m = (holeAddrs (carved hole size fits)).foldr
        (fun a => List.orderedInsert (sizeLe m) a)
        ((k.heap.index.entries k.mem).erase hole.addr) ∧
      WellFormed tagged (k.withIndex index m) (pre ++ carved hole size fits ++ post) ∧
      Set.EqOn m k.mem (hole.bytes ∪ k.heap.index.region k.heap.index.maxSize)ᶜ := by
  have sound := wf.indexIn
  have bounds := wf.layout.bounds (List.mem_append_right pre List.mem_cons_self)
  have small := wf.small
  have few := wf.index_lt_noHole
  have tight := wf.room
  have total := wf.layout.headers hole (List.mem_append_right pre List.mem_cons_self)
  have size32 : k.heap.index.size < 4294967296 := by
    unfold noHole at few
    omega
  obtain ⟨m1, removed, erased, outside, sound1⟩ := sound.remove within wf.nodup size32
  rw [here] at erased
  obtain ⟨least, most⟩ := blockLength_le fits
  obtain ⟨index, m, placed, sized, entries, inner, frame, sound'⟩ := placeBlock_correct
    (k := k.withIndex { k.heap.index with size := k.heap.index.size - 1 } m1)
    tagged ((Nat.le_add_left 20 size).trans least) most (blockLength_rest fits) sound1
    (fun _ => show k.heap.index.size - 1 < k.heap.index.maxSize by omega) bounds.1 bounds.2
  change Set.EqOn m m1 (hole.bytes ∪ k.heap.index.region k.heap.index.maxSize)ᶜ at frame
  change index.entries m = List.foldr _
    (({ k.heap.index with size := k.heap.index.size - 1 } : OrderedArray).entries m1) _ at entries
  have changed : Set.EqOn m k.mem (hole.bytes ∪ k.heap.index.region k.heap.index.maxSize)ᶜ :=
    frame.trans (outside.mono (Set.compl_subset_compl.mpr Set.subset_union_right))
  have array : index = { k.heap.index with size := index.size } := by
    rw [sized]
    rfl
  have listed : index.entries m = (holeAddrs (carved hole size fits)).foldr
      (fun a => List.orderedInsert (sizeLe m) a)
      ((k.heap.index.entries k.mem).erase hole.addr) := by
    rw [entries, erased, carved, holeAddrs_cons_block rfl]
  have perm : (index.entries m).Perm (holeAddrs (pre ++ carved hole size fits ++ post)) := by
    rw [listed, holeAddrs_append, holeAddrs_append]
    refine (perm_foldr_orderedInsert m _ _).trans ?_
    refine ((wf.entries_erase free).append_left _).trans ?_
    rw [holeAddrs_append, ← List.append_assoc]
    exact List.perm_append_comm.append_right _
  have layout : Layout tagged m k.heap.startAddress k.heap.endAddress
      (pre ++ carved hole size fits ++ post) :=
    wf.recut (fun _ _ tag => tag) inner changed
  refine ⟨index, m, ?_, array, listed, wf.withIndex (by rw [array]) layout perm sound', changed⟩
  rw [takeHole_plain within (here.symm ▸ plain) (here ▸ total.2.2) removed,
    takenPayload_eq fits (by omega), takenSize_eq fits (by omega), here, placed]
  rfl

-- the size that `alloc` looks for
theorem allocSize_eq (small : size + 20 < 4294967296) :
    Word32.add (Word32.add size sizeofHeader) sizeofFooter = size + 20 := by
  simp only [sizeofHeader, sizeofFooter, Word32.add]
  omega

theorem alloc_takes (kmallocInt : Kmalloc) (fuel : Nat) {pageAlign : Nat}
    (few : k.heap.index.size < noHole) (small : size + 20 < 4294967296)
    (fits : ∃ h ∈ k.heap.index.entries k.mem, holeFits (size + 20) pageAlign k.mem h = true) :
    ∃ iterator, iterator < k.heap.index.size ∧
      iterator = (k.heap.index.entries k.mem).findIdx (holeFits (size + 20) pageAlign k.mem) ∧
      holeFits (size + 20) pageAlign k.mem (k.heap.index.slot k.mem iterator) = true ∧
      alloc kmallocInt (fuel + 1) size pageAlign k =
        takeHole size (size + 20) pageAlign iterator k := by
  have within := List.findIdx_lt_length_of_exists fits
  have found := List.findIdx_getElem (w := within)
  rw [OrderedArray.getElem_entries] at found
  have within' := within
  rw [OrderedArray.length_entries] at within'
  refine ⟨_, within', rfl, found, ?_⟩
  have some_ : (k.heap.index.entries k.mem).findIdx (holeFits (size + 20) pageAlign k.mem) ≠
      noHole := by omega
  rw [alloc, allocSize_eq small, findSmallestHole_found fits, ok_bind, if_neg some_]

theorem alloc_grows (kmallocInt : Kmalloc) (fuel : Nat) {pageAlign : Nat}
    (small : size + 20 < 4294967296)
    (none : ∀ h ∈ k.heap.index.entries k.mem, holeFits (size + 20) pageAlign k.mem h = false) :
    alloc kmallocInt (fuel + 1) size pageAlign k =
      (growHeap kmallocInt (size + 20) k >>= alloc kmallocInt fuel size pageAlign) := by
  rw [alloc, allocSize_eq small, findSmallestHole_missing none, ok_bind, if_pos rfl]

/-- The chunks that an `alloc` leaves which has found room in `hole`, with the block at its start. -/
structure Carves (tagged : Chunk → Prop) (size : Nat) (k : Kernel) (pre : List Chunk) (hole : Chunk)
    (post : List Chunk) (block : Chunk) (rest : List Chunk) (k' : Kernel) : Prop where
  free : hole.hole = true
  start : block.addr = hole.addr
  used : block.hole = false
  enough : size + 20 ≤ block.size
  few : rest.length ≤ 1
  holes : ∀ c ∈ rest, c.hole = true
  wf : WellFormed tagged k' (pre ++ (block :: rest) ++ post)
  frame : Set.EqOn k'.mem k.mem (hole.bytes ∪ k.heap.index.region k.heap.index.maxSize)ᶜ
  same : ∃ size' m', k' = k.withIndex { k.heap.index with size := size' } m'

theorem alloc_carves (kmallocInt : Kmalloc) (fuel : Nat) (wf : WellFormed tagged k cs)
    (small : size + 20 < 4294967296) (fits : ∃ h ∈ cs, h.hole = true ∧ size + 20 ≤ h.size) :
    ∃ pre hole post block rest k', cs = pre ++ hole :: post ∧
      alloc kmallocInt (fuel + 1) size 0 k = .ok (hole.addr + 12, k') ∧
      Carves tagged size k pre hole post block rest k' := by
  obtain ⟨h, member, free, enough⟩ := fits
  have indexed : ∃ a ∈ k.heap.index.entries k.mem, holeFits (size + 20) 0 k.mem a = true := by
    refine ⟨h.addr, wf.mem_entries.mpr ⟨h, member, free, rfl⟩, ?_⟩
    simp only [holeFits, wf.headerSize_entry member, gt_iff_lt, Nat.lt_irrefl, if_false,
      decide_eq_true_eq]
    exact enough
  obtain ⟨iterator, within, -, found, taken⟩ := alloc_takes kmallocInt fuel
    wf.index_lt_noHole small indexed
  have entry : k.heap.index.slot k.mem iterator ∈ k.heap.index.entries k.mem :=
    List.mem_map.mpr ⟨iterator, List.mem_range.mpr within, rfl⟩
  obtain ⟨hole, inList, holeFree, here⟩ := wf.mem_entries.mp entry
  simp only [holeFits, ← here, wf.headerSize_entry inList, gt_iff_lt, Nat.lt_irrefl, if_false,
    decide_eq_true_eq] at found
  obtain ⟨pre, post, rfl⟩ := List.append_of_mem inList
  obtain ⟨index, m, result, array, -, wf', frame⟩ :=
    takeHole_correct wf holeFree within here.symm found (fun both => both.1 rfl)
  have longer := (blockLength_le found).1
  refine ⟨pre, hole, post,
    blockOf hole.addr (blockLength hole.size (size + 20)) ((Nat.le_add_left 20 size).trans longer),
    remainderOf hole.addr hole.size (blockLength hole.size (size + 20)), _, rfl,
    taken.trans result, holeFree, rfl, rfl, longer, remainderOf_length _ _ _,
    remainderOf_holes _ _ _, wf', frame, index.size, m, ?_⟩
  rw [← array]

/--
On a well-formed heap with a hole that is large enough, `alloc` turns one such hole into the block
and at most one hole behind it, and writes nowhere else but in the index.
-/
theorem alloc_in_place (kmallocInt : Kmalloc) (fuel size : Nat) (k : Kernel) (cs : List Chunk)
    (wf : WellFormed (fun c => c.addr + c.size ≠ k.heap.endAddress) k cs)
    (small : size + 20 < 4294967296) (fits : ∃ h ∈ cs, h.hole = true ∧ size + 20 ≤ h.size) :
    ∃ pre hole post block rest k', cs = pre ++ hole :: post ∧ hole.hole = true ∧
      alloc kmallocInt (fuel + 1) size 0 k = .ok (hole.addr + 12, k') ∧
      block.addr = hole.addr ∧ block.hole = false ∧ size + 20 ≤ block.size ∧
      rest.length ≤ 1 ∧ (∀ c ∈ rest, c.hole = true) ∧
      WellFormed (fun c => c.addr + c.size ≠ k.heap.endAddress) k'
        (pre ++ (block :: rest) ++ post) ∧
      Set.EqOn k'.mem k.mem (hole.bytes ∪ k.heap.index.region k.heap.index.maxSize)ᶜ ∧
      ∃ size' m', k' = k.withIndex { k.heap.index with size := size' } m' := by
  obtain ⟨pre, hole, post, block, rest, k', split, result, carves⟩ :=
    alloc_carves kmallocInt fuel wf small fits
  exact ⟨pre, hole, post, block, rest, k', split, carves.free, result, carves.start, carves.used,
    carves.enough, carves.few, carves.holes, carves.wf, carves.frame, carves.same⟩

-- a heap area of one hole of 100 bytes, with its index behind it
def oneHole : Chunk := { addr := 4096, size := 100, hole := true, room := by decide }

def oneHoleKernel : Kernel :=
  { Kernel.boot with
    mem := write32 (setHeaderIsHole (setHeaderMagic (setHeaderSize Kernel.boot.mem 4096 100) 4096
      heapMagic) 4096 1) 8192 4096
    heap := { index := { array := 8192, size := 1, maxSize := 4, lessThan := some headerTLessThan },
              startAddress := 4096, endAddress := 4196, maxAddress := 8192, supervisor := 0,
              readonly := 0 } }

theorem oneHole_wellFormed :
    WellFormed (fun c => c.addr + c.size ≠ oneHoleKernel.heap.endAddress) oneHoleKernel
      [oneHole] := by
  refine ⟨Layout.singleton rfl rfl ?_ (fun apart => absurd rfl apart), ?_, rfl, ?_, ?_, ?_, ?_⟩
  · exact ⟨by decide +kernel, by decide +kernel, by decide +kernel⟩
  · have listed : oneHoleKernel.heap.index.entries oneHoleKernel.mem = holeAddrs [oneHole] := by
      decide +kernel
    rw [listed]
  · decide
  · decide
  · rw [Set.disjoint_left]
    intro x inArray inHeap
    simp only [OrderedArray.region, oneHoleKernel, Set.mem_Ico] at inArray inHeap
    omega
  · decide

theorem alloc_in_place_oneHole :
    ∃ pre hole post block rest k', [oneHole] = pre ++ hole :: post ∧ hole.hole = true ∧
      alloc (kmallocInt 0) 1 8 0 oneHoleKernel = .ok (hole.addr + 12, k') ∧
      block.addr = hole.addr ∧ block.hole = false ∧ 8 + 20 ≤ block.size ∧
      rest.length ≤ 1 ∧ (∀ c ∈ rest, c.hole = true) ∧
      WellFormed (fun c => c.addr + c.size ≠ oneHoleKernel.heap.endAddress) k'
        (pre ++ (block :: rest) ++ post) ∧
      Set.EqOn k'.mem oneHoleKernel.mem
        (hole.bytes ∪ oneHoleKernel.heap.index.region oneHoleKernel.heap.index.maxSize)ᶜ ∧
      ∃ size' m', k' = oneHoleKernel.withIndex { oneHoleKernel.heap.index with size := size' } m' :=
  alloc_in_place (kmallocInt 0) 0 8 oneHoleKernel [oneHole] oneHole_wellFormed (by decide)
    ⟨oneHole, List.mem_singleton_self _, rfl, by decide⟩

end GekonOS
