import GekonOS.Heap.Layout

set_option autoImplicit false

namespace GekonOS

open ByteMemory Tiling

-- the order of the index: by the sizes in the headers
def sizeLe (m : Mem) (a b : Nat) : Prop := headerSize m a ≤ headerSize m b

instance (m : Mem) : DecidableRel (sizeLe m) :=
  fun a b => inferInstanceAs (Decidable (headerSize m a ≤ headerSize m b))

theorem orderedInsert_congr {α : Type} {r s : α → α → Prop} [DecidableRel r] [DecidableRel s]
    {item : α} {xs : List α} (same : ∀ x ∈ xs, r item x ↔ s item x) :
    xs.orderedInsert r item = xs.orderedInsert s item := by
  induction xs with
  | nil => rfl
  | cons x xs ih =>
    have later := ih fun y member => same y (List.mem_cons_of_mem _ member)
    have here := same x List.mem_cons_self
    by_cases le : r item x
    · rw [List.orderedInsert_cons_of_le r xs le, List.orderedInsert_cons_of_le s xs (here.mp le)]
    · rw [List.orderedInsert_of_not_le r xs le,
        List.orderedInsert_of_not_le s xs (fun l => le (here.mpr l)), later]

/-- The entries are headers between `lo` and `hi`, where the array itself is not. -/
structure IndexIn (index : OrderedArray) (m : Mem) (lo hi : Nat) : Prop where
  lessThan : index.lessThan = some headerTLessThan
  room : index.size ≤ index.maxSize
  apart : Disjoint (index.region index.maxSize) (Set.Ico lo hi)
  small : hi < 4294967296
  inside : ∀ h ∈ index.entries m, lo ≤ h ∧ h + 12 ≤ hi

namespace IndexIn

variable {index : OrderedArray} {m m' : Mem} {lo hi item : Nat}

theorem region_subset {n : Nat} (bound : n ≤ index.maxSize) :
    index.region n ⊆ index.region index.maxSize := by
  intro x within
  simp only [OrderedArray.region, Set.mem_Ico] at within ⊢
  omega

-- stores into the heap area leave the array alone, and stores into the array the heap area
theorem array_same (sound : IndexIn index m lo hi) (frame : Set.EqOn m' m (Set.Ico lo hi)ᶜ) :
    Set.EqOn m' m (index.region index.maxSize) :=
  frame.mono sound.apart.subset_compl_right

theorem heap_same (sound : IndexIn index m lo hi)
    (frame : Set.EqOn m' m (index.region index.maxSize)ᶜ) : Set.EqOn m' m (Set.Ico lo hi) :=
  frame.mono sound.apart.subset_compl_left

theorem entries_same (sound : IndexIn index m lo hi)
    (frame : Set.EqOn m' m (index.region index.maxSize)) : index.entries m' = index.entries m :=
  OrderedArray.entries_congr (frame.mono (region_subset sound.room))

theorem congr (sound : IndexIn index m lo hi)
    (frame : Set.EqOn m' m (index.region index.maxSize)) : IndexIn index m' lo hi :=
  { sound with inside := by rw [sound.entries_same frame]; exact sound.inside }

theorem headerSize_same (sound : IndexIn index m lo hi)
    (frame : Set.EqOn m' m (index.region index.maxSize)ᶜ) (lower : lo ≤ item)
    (upper : item + 12 ≤ hi) : headerSize m' item = headerSize m item :=
  headerSize_congr ((sound.heap_same frame).mono (Set.Ico_subset_Ico lower upper))

theorem insert (sound : IndexIn index m lo hi) (room : index.size < index.maxSize)
    (lower : lo ≤ item) (upper : item + 12 ≤ hi) :
    ∃ m', insertOrderedArray item index m = .ok ({ index with size := index.size + 1 }, m') ∧
      ({ index with size := index.size + 1 } : OrderedArray).entries m' =
        (index.entries m).orderedInsert (sizeLe m') item ∧
      Set.EqOn m' m (index.region index.maxSize)ᶜ ∧
      IndexIn { index with size := index.size + 1 } m' lo hi := by
  have small := sound.small
  obtain ⟨m', inserted, entries, frame⟩ :=
    insertOrderedArray_correct m sound.lessThan (show item < 4294967296 by omega)
  have outside : Set.EqOn m' m (index.region index.maxSize)ᶜ :=
    frame.mono (Set.compl_subset_compl.mpr (region_subset room))
  have ordered : ({ index with size := index.size + 1 } : OrderedArray).entries m' =
      (index.entries m).orderedInsert (sizeLe m') item := by
    rw [entries]
    apply orderedInsert_congr
    intro h member
    obtain ⟨lower', upper'⟩ := sound.inside h member
    simp [headerTLessThan, sizeLe, sound.headerSize_same outside lower upper,
      sound.headerSize_same outside lower' upper']
  refine ⟨m', inserted, ordered, outside, sound.lessThan, room, sound.apart, sound.small, ?_⟩
  intro h member
  rw [ordered, List.mem_orderedInsert] at member
  cases member with
  | inl here => exact here ▸ ⟨lower, upper⟩
  | inr earlier => exact sound.inside h earlier

theorem remove (sound : IndexIn index m lo hi) {i : Nat} (within : i < index.size)
    (nodup : (index.entries m).Nodup) (small : index.size < 4294967296) :
    ∃ m', removeOrderedArray i index m = .ok ({ index with size := index.size - 1 }, m') ∧
      ({ index with size := index.size - 1 } : OrderedArray).entries m' =
        (index.entries m).erase (index.slot m i) ∧
      Set.EqOn m' m (index.region index.maxSize)ᶜ ∧
      IndexIn { index with size := index.size - 1 } m' lo hi := by
  obtain ⟨m', removed, entries, frame⟩ := removeOrderedArray_correct m within small
  have bound : i < (index.entries m).length := by simpa using within
  have erased : ({ index with size := index.size - 1 } : OrderedArray).entries m' =
      (index.entries m).erase (index.slot m i) := by
    rw [entries, ← nodup.erase_getElem i bound, OrderedArray.getElem_entries]
  have room := sound.room
  refine ⟨m', removed, erased, frame.mono (Set.compl_subset_compl.mpr (region_subset room)),
    sound.lessThan, by simp only; omega, sound.apart, sound.small, ?_⟩
  intro h member
  rw [erased] at member
  exact sound.inside h (List.mem_of_mem_erase member)

end IndexIn

/-- The heap of `k` consists of `cs`, and its index lists the holes among them. -/
structure WellFormed (tagged : Chunk → Prop) (k : Kernel) (cs : List Chunk) : Prop where
  layout : Layout tagged k.mem k.heap.startAddress k.heap.endAddress cs
  entries : (k.heap.index.entries k.mem).Perm (holeAddrs cs)
  lessThan : k.heap.index.lessThan = some headerTLessThan
  room : k.heap.index.size ≤ k.heap.index.maxSize
  positive : 0 < k.heap.index.maxSize
  apart : Disjoint (k.heap.index.region k.heap.index.maxSize)
    (Set.Ico k.heap.startAddress k.heap.endAddress)
  small : k.heap.endAddress < 4294967296

namespace WellFormed

variable {tagged : Chunk → Prop} {k : Kernel} {cs : List Chunk} {c : Chunk}

theorem mem_entries (wf : WellFormed tagged k cs) {a : Nat} :
    a ∈ k.heap.index.entries k.mem ↔ ∃ c ∈ cs, c.hole = true ∧ c.addr = a := by
  rw [wf.entries.mem_iff, mem_holeAddrs]

theorem nodup (wf : WellFormed tagged k cs) : (k.heap.index.entries k.mem).Nodup := by
  have subset : (holeAddrs cs).Sublist (cs.map Chunk.addr) := List.filter_sublist.map _
  exact wf.entries.nodup_iff.mpr (wf.layout.tiles.addr_nodup.sublist subset)

theorem indexIn (wf : WellFormed tagged k cs) :
    IndexIn k.heap.index k.mem k.heap.startAddress k.heap.endAddress := by
  refine ⟨wf.lessThan, wf.room, wf.apart, wf.small, ?_⟩
  intro h member
  obtain ⟨c, inList, -, rfl⟩ := wf.mem_entries.mp member
  have bounds := wf.layout.bounds inList
  have room := c.room
  omega

theorem headerSize_entry (wf : WellFormed tagged k cs) (member : c ∈ cs) :
    headerSize k.mem c.addr = c.size := (wf.layout.headers c member).2.2

theorem le (wf : WellFormed tagged k cs) : k.heap.startAddress ≤ k.heap.endAddress :=
  wf.layout.le

end WellFormed

theorem Layout.few {tagged : Chunk → Prop} {m : Mem} {lo hi : Nat} {cs : List Chunk}
    (layout : Layout tagged m lo hi cs) : 20 * cs.length ≤ hi - lo := by
  induction cs generalizing lo with
  | nil => exact Nat.zero_le _
  | cons c cs ih =>
    obtain ⟨-, -, -, rest⟩ := Layout.cons.mp layout
    have := ih rest
    have := rest.le
    have := c.room
    rw [List.length_cons]
    omega

theorem WellFormed.size_few {tagged : Chunk → Prop} {k : Kernel} {cs : List Chunk}
    (wf : WellFormed tagged k cs) :
    20 * k.heap.index.size ≤ k.heap.endAddress - k.heap.startAddress := by
  have length := wf.entries.length_eq
  have fewer : (holeAddrs cs).length ≤ cs.length := by
    rw [holeAddrs, List.length_map]
    exact List.length_filter_le _ _
  have := wf.layout.few
  rw [OrderedArray.length_entries] at length
  omega

end GekonOS
