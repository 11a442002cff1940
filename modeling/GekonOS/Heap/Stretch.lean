import GekonOS.Heap.Cut
import GekonOS.Heap.Grow

set_option autoImplicit false

namespace GekonOS

open ByteMemory Loop

variable {kmallocInt : Kmalloc} {k k' : Kernel} {cs pre : List Chunk} {last hole : Chunk}
  {newSize : Nat}

/-- What the growth of a heap rests on: where it is, and where its index is not. -/
structure Growing (newSize : Nat) (k : Kernel) : Prop where
  ext : Extensible newSize k
  header : 20 ≤ newSize
  positive : 0 < k.heap.startAddress
  apart : Disjoint (k.heap.index.region k.heap.index.maxSize)
    (Set.Ico k.heap.startAddress k.heap.maxAddress)

/-- The heap has become longer, and `hole` ends it. -/
structure Stretched (newSize : Nat) (k k' : Kernel) (hole : Chunk) : Prop where
  free : hole.hole = true
  stop : hole.addr + hole.size = grownEnd newSize k
  heap : k'.heap = { k.heap with
    index := { k.heap.index with size := k'.heap.index.size }
    endAddress := grownEnd newSize k }
  directory : k'.directory = k.directory
  frame : Set.EqOn k'.mem k.mem (hole.bytes ∪ k.heap.index.region k.heap.index.maxSize)ᶜ

namespace Growing

-- writes into the area up to the maximum leave the index alone
theorem array_same (at_ : Growing newSize k) {m : Mem} {s : Set Nat}
    (frame : Set.EqOn m k.mem sᶜ) (within : s ⊆ Set.Ico k.heap.startAddress k.heap.maxAddress) :
    Set.EqOn m k.mem (k.heap.index.region k.heap.index.maxSize) :=
  frame.mono fun _ inArray inside => Set.disjoint_left.mp at_.apart inArray (within inside)

theorem new_hole (at_ : Growing newSize k) (wf : WellFormed Tagged k cs) (kmallocInt : Kmalloc)
    (full : ∀ c ∈ cs, c.hole = false) :
    ∃ k' hole, growHeap kmallocInt newSize k = .ok k' ∧ Stretched newSize k k' hole ∧
      hole.addr = k.heap.endAddress ∧ k'.heap.index.entries k'.mem = [hole.addr] ∧
      WellFormed Tagged k' (cs ++ [hole]) := by
  have limit := at_.ext.limit
  have above := at_.ext.stop
  have header := at_.header
  have le := at_.ext.le
  have empty : k.heap.index.entries k.mem = [] := by
    have none : holeAddrs cs = [] := by
      rw [List.eq_nil_iff_forall_not_mem]
      intro a member
      obtain ⟨c, inList, free, -⟩ := mem_holeAddrs.mp member
      exact absurd (full c inList) (by simp [free])
    have perm := wf.entries
    rw [none] at perm
    exact perm.eq_nil
  have size : k.heap.index.size = 0 := by
    rw [← OrderedArray.length_entries (m := k.mem), empty, List.length_nil]
  let c : Chunk :=
    { addr := k.heap.endAddress, size := grownEnd newSize k - k.heap.endAddress, hole := true,
      room := by omega }
  obtain ⟨header', footer, frame⟩ := newHole_correct k.mem c rfl
    (show k.heap.endAddress + (grownEnd newSize k - k.heap.endAddress) < 4294967296 by omega)
  obtain ⟨k1, ⟨frames, pages, rfl⟩, outcome⟩ := at_.ext.grows kmallocInt
  obtain ⟨m1, known⟩ : ∃ m1, newHole k.heap.endAddress
    (grownEnd newSize k - k.heap.endAddress) k.mem = m1 := ⟨_, rfl⟩
  rw [known] at outcome
  change c.HeaderAt (newHole k.heap.endAddress _ k.mem) at header'
  change c.FooterAt (newHole k.heap.endAddress _ k.mem) at footer
  change Set.EqOn (newHole k.heap.endAddress _ k.mem) k.mem c.bytesᶜ at frame
  rw [known] at header' footer frame
  cases outcome with
  | inr tall =>
    obtain ⟨h, listed, -⟩ := tall
    rw [empty] at listed
    exact absurd listed List.not_mem_nil
  | inl null =>
    have grown := null.2
    have stop : k.heap.endAddress + c.size = grownEnd newSize k := by
      change k.heap.endAddress + (grownEnd newSize k - k.heap.endAddress) = _
      omega
    have inHeap : c.bytes ⊆ Set.Ico k.heap.startAddress k.heap.maxAddress :=
      Set.Ico_subset_Ico le (stop.trans_le above.2)
    have arraySame := at_.array_same frame inHeap
    have listed : k.heap.index.entries m1 = [] := by
      rw [wf.indexIn.entries_same arraySame, empty]
    have sound : IndexIn k.heap.index m1 k.heap.startAddress (grownEnd newSize k) :=
      { lessThan := wf.lessThan, room := wf.room,
        apart := at_.apart.mono_right (Set.Ico_subset_Ico_right above.2), small := by omega,
        inside := by simp [listed] }
    obtain ⟨m', inserted, entries, outside, sound'⟩ := sound.insert
      (size.symm ▸ wf.positive) le (show k.heap.endAddress + 12 ≤ grownEnd newSize k by omega)
    rw [inserted, ok_bind] at grown
    have heapSame := sound.heap_same outside
    have cSame : Set.EqOn m' m1 c.bytes :=
      heapSame.mono (Set.Ico_subset_Ico le (Nat.le_of_eq stop))
    have before : Set.EqOn m' k.mem (Set.Ico k.heap.startAddress k.heap.endAddress) := by
      refine (heapSame.mono (Set.Ico_subset_Ico_right (by omega))).trans (frame.mono ?_)
      intro x inside beyond
      exact absurd inside.2 (Nat.not_lt_of_le beyond.1)
    have entries' : ({ k.heap.index with size := k.heap.index.size + 1 } : OrderedArray).entries
        m' = [k.heap.endAddress] := by
      rw [entries, listed]
      rfl
    refine ⟨_, c, grown, ⟨rfl, stop, rfl, rfl, ?_⟩, rfl, entries', ?_⟩
    · intro x away
      simp only [Set.mem_compl_iff, Set.mem_union, not_or] at away
      exact (outside away.2).trans (frame away.1)
    · refine ⟨Layout.append.mpr ⟨_, wf.layout.congr before, Layout.singleton rfl stop
        (header'.congr cSame) fun _ => footer.congr cSame⟩, ?_, sound'.lessThan, sound'.room,
        wf.positive, sound'.apart, sound'.small⟩
      have none : holeAddrs cs = [] := by
        have perm := wf.entries
        rw [empty] at perm
        exact perm.symm.eq_nil
      rw [holeAddrs_append, none]
      change (({ k.heap.index with size := k.heap.index.size + 1 } : OrderedArray).entries
        m').Perm [k.heap.endAddress]
      rw [entries']

theorem longer_hole (at_ : Growing newSize k) (wf : WellFormed (· ≠ last) k (pre ++ [last]))
    (kmallocInt : Kmalloc) (free : last.hole = true) :
    ∃ k' hole, growHeap kmallocInt newSize k = .ok k' ∧ Stretched newSize k k' hole ∧
      hole.addr = last.addr ∧ k'.heap.index.size = k.heap.index.size ∧
      k'.heap.index.entries k'.mem = k.heap.index.entries k.mem ∧
      WellFormed Tagged k' (pre ++ [hole]) := by
  have limit := at_.ext.limit
  have above := at_.ext.stop
  have header := at_.header
  have room := last.room
  have member : last ∈ pre ++ [last] := List.mem_append_right _ (List.mem_singleton_self last)
  obtain ⟨before, tags, -, after⟩ := Layout.middle.mp wf.layout
  have stop : last.addr + last.size = k.heap.endAddress := after.tiles
  have listed : last.addr ∈ k.heap.index.entries k.mem :=
    wf.mem_entries.mpr ⟨last, member, free, rfl⟩
  obtain ⟨k1, ⟨frames, pages, rfl⟩, outcome⟩ := at_.ext.grows kmallocInt
  cases outcome with
  | inl null =>
    have lower := (wf.layout.bounds member).1
    have positive := at_.positive
    have zero := null.1 _ listed
    omega
  | inr tall =>
    obtain ⟨h, inIndex, -, greatest, grown⟩ := tall
    have same : h = last.addr := by
      obtain ⟨d, inList, -, rfl⟩ := wf.mem_entries.mp inIndex
      have upper := greatest _ listed
      have dRoom := d.room
      cases List.mem_append.mp inList with
      | inl earlier =>
        have := (before.bounds earlier).2
        omega
      | inr here => rw [List.mem_singleton.mp here]
    subst same
    let last' : Chunk :=
      { addr := last.addr, size := last.size + (grownEnd newSize k - k.heap.endAddress),
        hole := true, room := by omega }
    have stop' : last'.addr + last'.size = grownEnd newSize k := by
      change last.addr + (last.size + (grownEnd newSize k - k.heap.endAddress)) = _
      omega
    have word : Word32.add (headerSize k.mem last.addr) (grownEnd newSize k - k.heap.endAddress) =
        last'.size := by
      rw [tags.2.2, Word32.add_of_lt (by omega)]
    rw [word] at grown
    have small : last'.addr + last'.size < 4294967296 := by omega
    have flag : headerIsHole k.mem last'.addr = 1 := by
      change headerIsHole k.mem last.addr = 1
      rw [tags.2.1, free]
      rfl
    have isHole : last'.hole = true := rfl
    obtain ⟨header', footer⟩ := resizeHole_correct isHole tags.1 flag small
    have behind : Word32.sub (Word32.add last'.addr last'.size) sizeofFooter =
        last'.addr + last'.size - 8 := by
      rw [sizeofFooter, Word32.add_of_lt small, Word32.sub_of_le (by omega) small]
    have frame := resizeHole_frame (m := k.mem) (show last'.size < 4294967296 by omega) behind
    change last'.HeaderAt (resizeHole last.addr _ k.mem) at header'
    change last'.FooterAt (resizeHole last.addr _ k.mem) at footer
    change Set.EqOn (resizeHole last.addr _ k.mem) k.mem _ at frame
    obtain ⟨m1, known⟩ : ∃ m1, resizeHole last.addr last'.size k.mem = m1 := ⟨_, rfl⟩
    rw [known] at grown header' footer frame
    have outside : Set.EqOn m1 k.mem last'.bytesᶜ := by
      refine frame.mono ?_
      intro x away changed
      simp only [Chunk.bytes, sizeField, Set.mem_compl_iff, Set.mem_union, Set.mem_Ico] at away changed
      have room' := last'.room
      omega
    have inHeap : last'.bytes ⊆ Set.Ico k.heap.startAddress k.heap.maxAddress :=
      Set.Ico_subset_Ico (wf.layout.bounds member).1 (by omega)
    have entries : k.heap.index.entries m1 = k.heap.index.entries k.mem :=
      wf.indexIn.entries_same (at_.array_same outside inHeap)
    have before' : Layout Tagged k.mem k.heap.startAddress last.addr pre :=
      ⟨before.tiles, before.headers, fun c earlier _ => before.footers c earlier
        (wf.layout.ne_middle (List.mem_append_left _ earlier))⟩
    refine ⟨_, last', grown, ⟨rfl, stop', rfl, rfl, ?_⟩, rfl, rfl, entries, ?_⟩
    · exact outside.mono (Set.compl_subset_compl.mpr Set.subset_union_left)
    · refine ⟨Layout.append.mpr ⟨_, before'.congr (outside.mono ?_), Layout.singleton rfl stop'
        header' fun _ => footer⟩, ?_, wf.lessThan, wf.room, wf.positive,
        at_.apart.mono_right (Set.Ico_subset_Ico_right above.2),
        show grownEnd newSize k < 4294967296 by omega⟩
      · intro x inside beyond
        exact absurd inside.2 (Nat.not_lt_of_le beyond.1)
      · change (k.heap.index.entries m1).Perm _
        have perm := wf.entries
        rw [holeAddrs_append, holeAddrs_cons_hole free] at perm
        rw [entries, holeAddrs_append, holeAddrs_cons_hole rfl]
        exact perm

end Growing

end GekonOS
