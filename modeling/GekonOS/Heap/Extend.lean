import GekonOS.Heap.Length
import GekonOS.Heap.Stretch

set_option autoImplicit false

namespace GekonOS

open ByteMemory Loop

variable {kmallocInt : Kmalloc} {k : Kernel} {cs pre : List Chunk} {last : Chunk} {newSize : Nat}

-- the chunks after the growth, the last of them a hole with the new space
structure Grew (newSize : Nat) (k : Kernel) (cs : List Chunk) (k' : Kernel) (cs' : List Chunk)
    (last : Chunk) : Prop where
  wf : WellFormed Tagged k' cs'
  heap : k'.heap.startAddress = k.heap.startAddress ∧ k'.heap.endAddress = grownEnd newSize k ∧
    k'.heap.index.region k'.heap.index.maxSize = k.heap.index.region k.heap.index.maxSize
  listed : last ∈ cs'
  free : last.hole = true
  enough : newSize ≤ last.size
  kept : ∀ c ∈ cs, c.hole = false → c ∈ cs' ∧ c.addr + c.size ≤ last.addr
  frame : Set.EqOn k'.mem k.mem (last.bytes ∪ k.heap.index.region k.heap.index.maxSize)ᶜ

/-- What the growth of a well-formed heap rests on: where it is, and where its index is not. -/
structure Extending (newSize : Nat) (k : Kernel) (cs : List Chunk) : Prop where
  wf : WellFormed Tagged k cs
  ext : Extensible newSize k
  header : 20 ≤ newSize
  positive : 0 < k.heap.startAddress
  apart : Disjoint (k.heap.index.region k.heap.index.maxSize)
    (Set.Ico k.heap.startAddress k.heap.maxAddress)

theorem Stretched.grew {k' : Kernel} {cs' : List Chunk} {hole : Chunk}
    (stretched : Stretched newSize k k' hole) (at_ : Growing newSize k)
    (wf : WellFormed Tagged k' cs') (listed : hole ∈ cs') (low : hole.addr ≤ k.heap.endAddress)
    (kept : ∀ c ∈ cs, c.hole = false → c ∈ cs' ∧ c.addr + c.size ≤ hole.addr) :
    Grew newSize k cs k' cs' hole := by
  have stop := stretched.stop
  have above := at_.ext.stop
  constructor
  case wf => exact wf
  case heap =>
    rw [stretched.heap]
    exact ⟨rfl, rfl, rfl⟩
  case listed => exact listed
  case free => exact stretched.free
  case enough => omega
  case kept => exact kept
  case frame => exact stretched.frame

namespace Extending

theorem entry_pos (at_ : Extending newSize k cs) {h : Nat}
    (listed : h ∈ k.heap.index.entries k.mem) : 0 < h :=
  Nat.lt_of_lt_of_le at_.positive (at_.wf.indexIn.inside h listed).1

theorem null_iff (at_ : Extending newSize k cs) :
    (∀ h ∈ k.heap.index.entries k.mem, h = 0) ↔ ∀ c ∈ cs, c.hole = false := by
  constructor
  · intro zero c member
    by_contra free
    have listed := at_.wf.mem_entries.mpr ⟨c, member, Bool.of_not_eq_false free, rfl⟩
    exact absurd (zero _ listed) (Nat.ne_of_gt (at_.entry_pos listed))
  · intro full h listed
    obtain ⟨c, member, free, -⟩ := at_.wf.mem_entries.mp listed
    exact absurd (full c member) (by simp [free])

-- writes into the area up to the maximum leave the index alone
theorem array_same (at_ : Extending newSize k cs) {m : Mem} {s : Set Nat}
    (frame : Set.EqOn m k.mem sᶜ) (within : s ⊆ Set.Ico k.heap.startAddress k.heap.maxAddress) :
    Set.EqOn m k.mem (k.heap.index.region k.heap.index.maxSize) :=
  frame.mono fun _ inArray inside => Set.disjoint_left.mp at_.apart inArray (within inside)

theorem growing (at_ : Extending newSize k cs) : Growing newSize k :=
  ⟨at_.ext, at_.header, at_.positive, at_.apart⟩

theorem grew_new (at_ : Extending newSize k cs) (kmallocInt : Kmalloc)
    (full : ∀ c ∈ cs, c.hole = false) :
    ∃ k' cs' last, growHeap kmallocInt newSize k = .ok k' ∧ Grew newSize k cs k' cs' last := by
  obtain ⟨k', hole, grown, stretched, start, -, wf'⟩ := at_.growing.new_hole at_.wf kmallocInt full
  refine ⟨k', cs ++ [hole], hole, grown, stretched.grew at_.growing wf' (by simp) ?_ ?_⟩
  · rw [start]
  · intro d member used
    rw [start]
    exact ⟨List.mem_append_left _ member, (at_.wf.layout.bounds member).2⟩

theorem grew_last (at_ : Extending newSize k (pre ++ [last])) (kmallocInt : Kmalloc)
    (free : last.hole = true) :
    ∃ k' cs' last', growHeap kmallocInt newSize k = .ok k' ∧
      Grew newSize k (pre ++ [last]) k' cs' last' := by
  obtain ⟨k', hole, grown, stretched, start, -, -, wf'⟩ :=
    at_.growing.longer_hole (at_.wf.retag fun _ _ _ => trivial) kmallocInt free
  have member : last ∈ pre ++ [last] := List.mem_append_right _ (List.mem_singleton_self last)
  have bounds := at_.wf.layout.bounds member
  refine ⟨k', pre ++ [hole], hole, grown, stretched.grew at_.growing wf' (by simp) (by omega) ?_⟩
  intro d inList used
  rw [start]
  cases List.mem_append.mp inList with
  | inl earlier =>
    exact ⟨List.mem_append_left _ earlier,
      ((Layout.middle.mp at_.wf.layout).1.bounds earlier).2⟩
  | inr here =>
    rw [List.mem_singleton.mp here, free] at used
    exact absurd used (by decide)

end Extending

/-- What `alloc` shall do when it has to make the heap longer. -/
structure ServesGrown (kmallocInt : Kmalloc) (fuel size : Nat) (k : Kernel) (cs : List Chunk)
    (block : Chunk) (k' : Kernel) (cs' : List Chunk) : Prop where
  result : alloc kmallocInt fuel size 0 k = .ok (block.addr + 12, k')
  wf : WellFormed Tagged k' cs'
  start : k'.heap.startAddress = k.heap.startAddress
  longer : k.heap.endAddress < k'.heap.endAddress
  listed : block ∈ cs'
  used : block.hole = false
  enough : size + 20 ≤ block.size
  kept : ∀ c ∈ cs, c.hole = false →
    c ∈ cs' ∧ Set.EqOn k'.mem k.mem c.bytes ∧ Disjoint c.bytes block.bytes

theorem Layout.disjoint {tagged : Chunk → Prop} {m : Mem} {lo hi : Nat} {c d : Chunk}
    (layout : Layout tagged m lo hi cs) (hc : c ∈ cs) (hd : d ∈ cs) (distinct : c ≠ d) :
    Disjoint c.bytes d.bytes := by
  have order := layout.tiles.apart hc hd distinct
  rw [Set.disjoint_left]
  intro x inside inside'
  simp only [Chunk.bytes, Set.mem_Ico] at inside inside'
  omega

variable {size fuel : Nat}

/-- The live chunks stay where they are when the block is carved out of the heap that has grown. -/
theorem Grew.serves {k' : Kernel} {cs' : List Chunk} (grew : Grew (size + 20) k cs k' cs' last)
    (at_ : Extending (size + 20) k cs) (small : size + 20 < 4294967296)
    (grown : growHeap kmallocInt (size + 20) k = .ok k')
    (none : ∀ h ∈ k.heap.index.entries k.mem, holeFits (size + 20) 0 k.mem h = false) :
    ∃ block k'' cs'', ServesGrown kmallocInt (fuel + 2) size k cs block k'' cs'' := by
  have above := at_.ext.stop
  obtain ⟨start, stop, region⟩ := grew.heap
  obtain ⟨pre, hole, post, block, rest, k'', rfl, result, carves⟩ :=
    alloc_carves kmallocInt fuel grew.wf small ⟨last, grew.listed, grew.free, grew.enough⟩
  have ends : k''.heap.startAddress = k'.heap.startAddress ∧
      k''.heap.endAddress = k'.heap.endAddress := by
    obtain ⟨size', m', same⟩ := carves.same
    rw [same]
    exact ⟨rfl, rfl⟩
  have stays (c : Chunk) (member : c ∈ pre ++ hole :: post) (used : c.hole = false) :
      c ∈ pre ++ (block :: rest) ++ post ∧ c ≠ hole := by
    have apart : c ≠ hole := by
      rintro rfl
      rw [carves.free] at used
      exact absurd used (by decide)
    refine ⟨?_, apart⟩
    simp only [List.mem_append, List.mem_cons] at member ⊢
    tauto
  refine ⟨block, k'', pre ++ (block :: rest) ++ post, ?_⟩
  constructor
  case result =>
    rw [alloc_grows kmallocInt (fuel + 1) small none, grown, ok_bind, result, carves.start]
  case wf => exact carves.wf
  case start => exact ends.1.trans start
  case longer => omega
  case listed => simp
  case used => exact carves.used
  case enough => exact carves.enough
  case kept =>
    intro c inList used
    obtain ⟨inGrown, below⟩ := grew.kept c inList used
    obtain ⟨inCarved, notHole⟩ := stays c inGrown used
    have member : hole ∈ pre ++ hole :: post := List.mem_append_right _ List.mem_cons_self
    have offHole := grew.wf.layout.disjoint inGrown member notHole
    have bounds := at_.wf.layout.bounds inList
    have offArray : Disjoint c.bytes (k.heap.index.region k.heap.index.maxSize) :=
      (at_.wf.apart.mono_right (Set.Ico_subset_Ico bounds.1 bounds.2)).symm
    have notBlock : c ≠ block := by
      rintro rfl
      have sameAddr := grew.wf.layout.tiles.addr_injective inGrown member carves.start
      exact notHole sameAddr
    refine ⟨inCarved, ?_, carves.wf.layout.disjoint inCarved (by simp) notBlock⟩
    have first : Set.EqOn k'.mem k.mem c.bytes := by
      refine grew.frame.mono ?_
      intro x inside changed
      cases changed with
      | inl inLast => exact absurd inside.2 (Nat.not_lt_of_le (below.trans inLast.1))
      | inr inArray => exact Set.disjoint_left.mp offArray inside inArray
    refine (carves.frame.mono ?_).trans first
    intro x inside changed
    cases changed with
    | inl inHole => exact Set.disjoint_left.mp offHole inside inHole
    | inr inArray =>
      rw [region] at inArray
      exact Set.disjoint_left.mp offArray inside inArray

theorem WellFormed.live_behind {hole : Chunk} (wf : WellFormed Tagged k (pre ++ [last]))
    (used : last.hole = false) (member : hole ∈ pre ++ [last]) (free : hole.hole = true)
    (greatest : ∀ h ∈ k.heap.index.entries k.mem, h ≤ hole.addr) :
    ∃ n ∈ pre ++ [last], n.hole = false ∧ n.addr = hole.addr + hole.size := by
  have room := hole.room
  have inPre : hole ∈ pre := by
    cases List.mem_append.mp member with
    | inl earlier => exact earlier
    | inr here =>
      rw [List.mem_singleton.mp here, used] at free
      exact absurd free (by decide)
  obtain ⟨front, back, rfl⟩ := List.append_of_mem inPre
  obtain ⟨n, rest, split⟩ : ∃ n rest, back ++ [last] = n :: rest :=
    List.exists_cons_of_ne_nil (by simp)
  rw [List.append_assoc, List.cons_append, split] at wf ⊢
  obtain ⟨-, -, -, after⟩ := Layout.middle.mp wf.layout
  have next := (Layout.cons.mp after).1
  have inList : n ∈ front ++ hole :: n :: rest := by simp
  refine ⟨n, inList, ?_, next⟩
  by_contra isHole
  have upper := greatest _ (wf.mem_entries.mpr ⟨n, inList, Bool.of_not_eq_false isHole, rfl⟩)
  omega

/--
When the heap ends with a block and there is a hole somewhere, that hole grows over its neighbour,
and the block is carved from there.
-/
theorem Extending.overlaps (at_ : Extending (size + 20) k (pre ++ [last])) (used : last.hole = false)
    (free : ∃ c ∈ pre, c.hole = true) (small : size + 20 < 4294967296)
    (tight : ∀ c ∈ pre ++ [last], c.hole = true → c.size < size + 20)
    (none : ∀ h ∈ k.heap.index.entries k.mem, holeFits (size + 20) 0 k.mem h = false)
    {block : Chunk} {k' : Kernel} {cs' : List Chunk} :
    ¬ ServesGrown kmallocInt (fuel + 2) size k (pre ++ [last]) block k' cs' := by
  intro serves
  have limit := at_.ext.limit
  have above := at_.ext.stop
  have wf := at_.wf
  obtain ⟨k1, ⟨frames, pages, rfl⟩, outcome⟩ := at_.ext.grows kmallocInt
  cases outcome with
  | inl null =>
    obtain ⟨c, member, isHole⟩ := free
    have full := at_.null_iff.mp null.1 c (List.mem_append_left _ member)
    rw [isHole] at full
    exact absurd full (by decide)
  | inr tall =>
    obtain ⟨_, inIndex, -, greatest, grown⟩ := tall
    obtain ⟨d, member, dFree, rfl⟩ := wf.mem_entries.mp inIndex
    have room := d.room
    have bounds := wf.layout.bounds member
    obtain ⟨n, inList, nUsed, next⟩ := wf.live_behind used member dFree greatest
    obtain ⟨size', known⟩ : ∃ size', d.size +
      (grownEnd (size + 20) k - k.heap.endAddress) = size' := ⟨_, rfl⟩
    have word : Word32.add (headerSize k.mem d.addr)
        (grownEnd (size + 20) k - k.heap.endAddress) = size' := by
      rw [wf.headerSize_entry member, Word32.add_of_lt (by omega), known]
    rw [word] at grown
    have footer : Word32.sub (Word32.add d.addr size') sizeofFooter = d.addr + size' - 8 := by
      rw [sizeofFooter, Word32.add_of_lt (by omega), Word32.sub_of_le (by omega) (by omega)]
    have frame := resizeHole_frame (m := k.mem) (show size' < 4294967296 by omega) footer
    have longer : headerSize (resizeHole d.addr size' k.mem) d.addr = size' :=
      resizeHole_size (by omega) footer (by omega)
    obtain ⟨m1, resized⟩ : ∃ m1, resizeHole d.addr size' k.mem = m1 := ⟨_, rfl⟩
    rw [resized] at grown frame longer
    have entries : k.heap.index.entries m1 = k.heap.index.entries k.mem := by
      refine wf.indexIn.entries_same (at_.array_same frame ?_)
      intro x changed
      simp only [sizeField, Set.mem_union, Set.mem_Ico] at changed ⊢
      omega
    obtain ⟨k2, stretched, sameIndex, sameMem⟩ : ∃ k2, growHeap kmallocInt (size + 20) k =
      .ok k2 ∧ k2.heap.index = k.heap.index ∧ k2.mem = m1 := ⟨_, grown, rfl, rfl⟩
    have fits : ∃ h ∈ k2.heap.index.entries k2.mem, holeFits (size + 20) 0 k2.mem h = true := by
      rw [sameIndex, sameMem]
      refine ⟨d.addr, entries.symm ▸ inIndex, ?_⟩
      simp only [holeFits, longer, gt_iff_lt, Nat.lt_irrefl, if_false, decide_eq_true_eq]
      omega
    obtain ⟨iterator, within, -, found, taken⟩ := alloc_takes kmallocInt fuel
      (sameIndex ▸ wf.index_lt_noHole) small fits
    have result := serves.result
    rw [alloc_grows kmallocInt (fuel + 1) small none, stretched, ok_bind, taken] at result
    have ptr := takeHole_ptr within (show k2.heap.index.size < 4294967296 by
      have few := wf.index_lt_noHole
      unfold noHole at few
      rw [sameIndex]
      omega) (fun both => both.1 rfl) result
    rw [sameIndex] at within
    rw [sameIndex, sameMem] at found ptr
    have here : k.heap.index.slot m1 iterator = d.addr := by
      have listed : k.heap.index.slot m1 iterator ∈ k.heap.index.entries m1 :=
        List.mem_map.mpr ⟨iterator, List.mem_range.mpr within, rfl⟩
      rw [entries] at listed
      obtain ⟨g, gList, gFree, atSlot⟩ := wf.mem_entries.mp listed
      rw [← atSlot] at found ⊢
      by_contra other
      have upper := greatest _ (wf.mem_entries.mpr ⟨g, gList, gFree, rfl⟩)
      have order := wf.layout.tiles.apart gList member
        fun same => other (congrArg Chunk.addr same)
      have gRoom := g.room
      have same : headerSize m1 g.addr = g.size := by
        rw [headerSize_congr (frame.mono _), wf.headerSize_entry gList]
        intro x inside changed
        simp only [sizeField, Set.mem_union, Set.mem_Ico] at inside changed
        omega
      simp only [holeFits, same, gt_iff_lt, Nat.lt_irrefl, if_false, decide_eq_true_eq] at found
      exact absurd found (Nat.not_le_of_lt (tight g gList gFree))
    rw [here, sizeofHeader, Word32.add_of_lt (by omega)] at ptr
    -- the first byte of the chunk behind the hole is in the block too
    have enough := serves.enough
    have short := tight d member dFree
    have nRoom := n.room
    have apart := (serves.kept n inList nUsed).2.2
    exact Set.disjoint_left.mp apart (show n.addr ∈ n.bytes from ⟨Nat.le_refl _, by omega⟩)
      (show n.addr ∈ block.bytes from ⟨by omega, by omega⟩)

/--
An `alloc` that has to make the heap longer keeps it well-formed and its live chunks apart from the
new block if and only if there is no hole at all or the last chunk is one.
-/
theorem alloc_grows_iff (kmallocInt : Kmalloc) (fuel size : Nat) (k : Kernel) (cs : List Chunk)
    (wf : WellFormed Tagged k cs) (tight : ∀ c ∈ cs, c.hole = true → c.size < size + 20)
    (positive : 0 < k.heap.startAddress) (limit : k.heap.maxAddress < 4294967296)
    (fits : grownEnd (size + 20) k ≤ k.heap.maxAddress)
    (apart : Disjoint (k.heap.index.region k.heap.index.maxSize)
      (Set.Ico k.heap.startAddress k.heap.maxAddress))
    (mapped : Mapped k k.heap.maxAddress) :
    (∃ block k' cs', ServesGrown kmallocInt (fuel + 2) size k cs block k' cs') ↔
      (∀ c ∈ cs, c.hole = false) ∨ ∃ pre last, cs = pre ++ [last] ∧ last.hole = true := by
  have le := wf.le
  have above := le_expandedLength (k.heap.endAddress - k.heap.startAddress + (size + 20))
  have bound := fits
  unfold grownEnd at bound
  have at_ : Extending (size + 20) k cs :=
    { wf := wf, header := Nat.le_add_left 20 size, positive := positive, apart := apart,
      ext := { positive := by omega, le := le, bound := by omega, limit := limit, fits := fits,
               top := expandedLength_top (by omega), mapped := mapped } }
  have small : size + 20 < 4294967296 := by omega
  have none (h : Nat) (listed : h ∈ k.heap.index.entries k.mem) :
      holeFits (size + 20) 0 k.mem h = false := by
    obtain ⟨c, member, free, rfl⟩ := wf.mem_entries.mp listed
    simp only [holeFits, wf.headerSize_entry member, gt_iff_lt, Nat.lt_irrefl, if_false]
    exact decide_eq_false (Nat.not_le_of_lt (tight c member free))
  constructor
  · rintro ⟨block, k', cs', serves⟩
    by_contra neither
    simp only [not_or, not_forall, not_exists, not_and] at neither
    obtain ⟨⟨h, member, free⟩, lastUsed⟩ := neither
    have nonempty : cs ≠ [] := List.ne_nil_of_mem member
    obtain ⟨pre, last, rfl⟩ : ∃ pre last, cs = pre ++ [last] :=
      ⟨cs.dropLast, cs.getLast nonempty, (List.dropLast_append_getLast nonempty).symm⟩
    have used : last.hole = false := Bool.eq_false_iff.mpr (lastUsed pre last rfl)
    have inPre : h ∈ pre := by
      cases List.mem_append.mp member with
      | inl earlier => exact earlier
      | inr here => exact absurd (List.mem_singleton.mp here ▸ used) free
    exact at_.overlaps used ⟨h, inPre, Bool.of_not_eq_false free⟩ small tight none serves
  · rintro (full | ⟨pre, last, rfl, free⟩)
    · obtain ⟨k', cs', last, grown, grew⟩ := at_.grew_new kmallocInt full
      exact grew.serves at_ small grown none
    · obtain ⟨k', cs', last', grown, grew⟩ := at_.grew_last kmallocInt free
      exact grew.serves at_ small grown none

-- a hole of 40 bytes with a block of 40 bytes behind it, and the index at 4096
theorem tiny_room : 20 ≤ 40 := Nat.le_add_left 20 20

def tinyHole : Chunk := { addr := 0x100000, size := 40, hole := true, room := tiny_room }

def tinyBlock : Chunk := { addr := 0x100028, size := 40, hole := false, room := tiny_room }

def tinyMem : Mem :=
  write32 (newHole 0x100000 40 (writeBlock 0x100028 20 40 fun _ => 0)) 4096 0x100000

def tinyKernel (stop : Nat) : Kernel :=
  { areaKernel 0 with
    mem := tinyMem
    heap := { (areaKernel 0).heap with
      index := { array := 4096, size := 1, maxSize := 4, lessThan := some headerTLessThan }
      endAddress := stop } }

theorem tinyKernel_apart (stop upper : Nat) :
    Disjoint ((tinyKernel stop).heap.index.region (tinyKernel stop).heap.index.maxSize)
      (Set.Ico (tinyKernel stop).heap.startAddress upper) := by
  rw [Set.disjoint_left]
  intro x inArray inHeap
  simp only [OrderedArray.region, tinyKernel, areaKernel, Set.mem_Ico] at inArray inHeap
  omega

theorem tinyHole_tags : tinyHole.HeaderAt tinyMem ∧ tinyHole.FooterAt tinyMem :=
  ⟨⟨by decide +kernel, by decide +kernel, by decide +kernel⟩, by decide +kernel, by decide +kernel⟩

theorem tinyBlock_tags : tinyBlock.HeaderAt tinyMem ∧ tinyBlock.FooterAt tinyMem :=
  ⟨⟨by decide +kernel, by decide +kernel, by decide +kernel⟩, by decide +kernel, by decide +kernel⟩

theorem tinyKernel_entries (stop : Nat) :
    (tinyKernel stop).heap.index.entries (tinyKernel stop).mem = [0x100000] := by
  have slot : read32 tinyMem 4096 = 0x100000 := by decide +kernel
  change [read32 tinyMem (4096 + 4 * 0)] = _
  rw [Nat.mul_zero, Nat.add_zero, slot]

theorem tinyKernel_hole : WellFormed Tagged (tinyKernel 0x100028) [tinyHole] := by
  refine ⟨Layout.singleton rfl rfl tinyHole_tags.1 fun _ => tinyHole_tags.2, ?_, rfl, by decide,
    by decide, tinyKernel_apart _ _, by decide⟩
  rw [tinyKernel_entries]
  exact List.Perm.refl _

theorem tinyKernel_both : WellFormed Tagged (tinyKernel 0x100050) [tinyHole, tinyBlock] := by
  refine ⟨Layout.cons.mpr ⟨rfl, tinyHole_tags.1, fun _ => tinyHole_tags.2,
    Layout.singleton rfl rfl tinyBlock_tags.1 fun _ => tinyBlock_tags.2⟩, ?_, rfl, by decide,
    by decide, tinyKernel_apart _ _, by decide⟩
  rw [tinyKernel_entries]
  exact List.Perm.refl _

theorem tinyKernel_mapped (stop limit : Nat) : Mapped (tinyKernel stop) limit :=
  (areaKernel_mapped 0 limit).congr rfl rfl

theorem alloc_grows_iff_hole :
    ∃ block k' cs', ServesGrown (GekonOS.kmallocInt 0) 2 100 (tinyKernel 0x100028) [tinyHole] block
      k' cs' :=
  (alloc_grows_iff (GekonOS.kmallocInt 0) 0 100 (tinyKernel 0x100028) [tinyHole] tinyKernel_hole
    (by
      intro c member _
      rw [List.mem_singleton.mp member]
      decide)
    (by decide) (by decide) (by decide) (tinyKernel_apart _ _)
    (tinyKernel_mapped _ _)).mpr (Or.inr ⟨[], tinyHole, rfl, rfl⟩)

/-- The hole in front of the last block grows over it. -/
theorem alloc_grows_over_block :
    ¬ ∃ block k' cs', ServesGrown (GekonOS.kmallocInt 0) 2 100 (tinyKernel 0x100050)
      [tinyHole, tinyBlock] block k' cs' := by
  rintro ⟨block, k', cs', serves⟩
  have at_ : Extending (100 + 20) (tinyKernel 0x100050) ([tinyHole] ++ [tinyBlock]) :=
    { wf := tinyKernel_both, header := by decide, positive := by decide,
      apart := tinyKernel_apart _ _,
      ext := { positive := by decide, le := by decide, bound := by decide, limit := by decide,
               fits := by decide, top := by decide, mapped := tinyKernel_mapped _ _ } }
  have small (c : Chunk) (member : c ∈ [tinyHole] ++ [tinyBlock]) (_ : c.hole = true) :
      c.size < 100 + 20 := by
    simp only [List.cons_append, List.nil_append, List.mem_cons, List.not_mem_nil,
      or_false] at member
    rcases member with rfl | rfl
    · decide
    · decide
  refine at_.overlaps rfl ⟨tinyHole, List.mem_singleton_self _, rfl⟩ (by decide) small ?_ serves
  intro h listed
  rw [tinyKernel_entries, List.mem_singleton] at listed
  subst listed
  decide +kernel

end GekonOS
