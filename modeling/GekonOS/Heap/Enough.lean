import GekonOS.Heap.Align
import GekonOS.Heap.Grow

set_option autoImplicit false

namespace GekonOS

open ByteMemory Loop

variable {kmallocInt : Kmalloc} {k k1 k' : Kernel} {m : Mem}
  {size newSize pageAlign iterator p : Nat}

/-- The index holds nothing but holes of the heap area, and is not in what the area may become. -/
structure Holes (k : Kernel) : Prop where
  le : k.heap.startAddress ≤ k.heap.endAddress
  bound : k.heap.endAddress ≤ k.heap.maxAddress
  -- the area ends on a page
  limit : k.heap.maxAddress + 4096 ≤ 4294967296
  apart : Disjoint (k.heap.index.region k.heap.index.maxSize)
    (Set.Ico k.heap.startAddress k.heap.maxAddress)
  array : k.heap.index.array + 4 * k.heap.index.maxSize ≤ 4294967296
  room : k.heap.index.size ≤ k.heap.index.maxSize
  inside : ∀ h ∈ k.heap.index.entries k.mem, k.heap.startAddress ≤ h ∧
    20 ≤ headerSize k.mem h ∧ h + headerSize k.mem h ≤ k.heap.endAddress

/-- A growth that does not wrap around, of a heap whose holes do not overlap. -/
structure Grown (kmallocInt : Kmalloc) (newSize : Nat) (k k1 : Kernel) : Prop where
  ext : Extensible newSize k
  chunk : k.heap.endAddress + 20 ≤ grownEnd newSize k
  spare : k.heap.index.size < k.heap.index.maxSize
  spread : ∀ g ∈ k.heap.index.entries k.mem, ∀ h ∈ k.heap.index.entries k.mem,
    g < h → g + 12 ≤ h
  result : growHeap kmallocInt newSize k = .ok k1

namespace Holes

theorem entries_same (holes : Holes k) {s : Set Nat} (frame : Set.EqOn m k.mem sᶜ)
    (within : s ⊆ Set.Ico k.heap.startAddress k.heap.maxAddress) :
    k.heap.index.entries m = k.heap.index.entries k.mem := by
  apply OrderedArray.entries_congr
  refine frame.mono ?_
  intro x inArray inside
  exact Set.disjoint_left.mp holes.apart (IndexIn.region_subset holes.room inArray)
    (within inside)

theorem adds (holes : Holes k) {frames : Nat → BitVec 32} {pages : Nat → Page} {stop : Nat}
    (chunk : k.heap.endAddress + 20 ≤ stop) (within : stop ≤ k.heap.maxAddress)
    (spare : k.heap.index.size < k.heap.index.maxSize) {index : OrderedArray} {m' : Mem}
    (inserted : insertOrderedArray k.heap.endAddress k.heap.index
      (newHole k.heap.endAddress (stop - k.heap.endAddress) k.mem) = .ok (index, m')) :
    Holes ((Kernel.upTo { k with frames := frames, pages := pages } stop).withIndex index m') := by
  have le := holes.le
  have limit := holes.limit
  let c : Chunk :=
    { addr := k.heap.endAddress, size := stop - k.heap.endAddress, hole := true,
      room := by omega }
  have inHeap : c.bytes ⊆ Set.Ico k.heap.startAddress k.heap.maxAddress :=
    Set.Ico_subset_Ico le (show k.heap.endAddress + (stop - k.heap.endAddress) ≤ _ by omega)
  obtain ⟨header, -, frame⟩ := newHole_correct k.mem c rfl
    (show k.heap.endAddress + (stop - k.heap.endAddress) < 4294967296 by omega)
  change Set.EqOn (newHole k.heap.endAddress (stop - k.heap.endAddress) k.mem) k.mem
    c.bytesᶜ at frame
  obtain ⟨rfl, listed, outside⟩ := insertOrderedArray_returns inserted (by omega)
  rw [holes.entries_same frame inHeap] at listed
  have same : Set.EqOn m' (newHole k.heap.endAddress (stop - k.heap.endAddress) k.mem)
      (Set.Ico k.heap.startAddress k.heap.maxAddress) :=
    outside.mono fun x inside inArray =>
      Set.disjoint_left.mp holes.apart (IndexIn.region_subset spare inArray) inside
  refine ⟨show k.heap.startAddress ≤ stop by omega, within, limit, holes.apart, holes.array, spare,
    ?_⟩
  intro g member
  cases List.mem_cons.mp (listed.mem_iff.mp member) with
  | inl here =>
    subst here
    have sized : headerSize m' k.heap.endAddress = stop - k.heap.endAddress :=
      (header.congr (same.mono inHeap)).2.2
    change k.heap.startAddress ≤ k.heap.endAddress ∧
      20 ≤ headerSize m' k.heap.endAddress ∧
      k.heap.endAddress + headerSize m' k.heap.endAddress ≤ stop
    omega
  | inr earlier =>
    obtain ⟨lower, room, upper⟩ := holes.inside g earlier
    have kept : headerSize m' g = headerSize k.mem g := by
      apply headerSize_congr
      refine (same.mono (Set.Ico_subset_Ico (by omega) (by omega))).trans (frame.mono ?_)
      intro x inHeader inNew
      simp only [Chunk.bytes, c, Set.mem_Ico] at inHeader inNew
      omega
    change k.heap.startAddress ≤ g ∧ 20 ≤ headerSize m' g ∧ g + headerSize m' g ≤ stop
    omega

theorem stretches (holes : Holes k) {frames : Nat → BitVec 32} {pages : Nat → Page} {stop h : Nat}
    (chunk : k.heap.endAddress + 20 ≤ stop) (within : stop ≤ k.heap.maxAddress)
    (spread : ∀ g ∈ k.heap.index.entries k.mem, g < h → g + 12 ≤ h)
    (listed : h ∈ k.heap.index.entries k.mem)
    (greatest : ∀ g ∈ k.heap.index.entries k.mem, g ≤ h) :
    Holes { Kernel.upTo { k with frames := frames, pages := pages } stop with
      mem := resizeHole h (Word32.add (headerSize k.mem h) (stop - k.heap.endAddress)) k.mem } := by
  have limit := holes.limit
  obtain ⟨lower, room, upper⟩ := holes.inside h listed
  obtain ⟨longer, longer_eq⟩ : ∃ longer,
      headerSize k.mem h + (stop - k.heap.endAddress) = longer := ⟨_, rfl⟩
  rw [Word32.add_of_lt (by omega), longer_eq]
  have at_ : Word32.sub (Word32.add h longer) sizeofFooter = h + longer - 8 := by
    rw [sizeofFooter, Word32.add_of_lt (by omega), Word32.sub_of_le (by omega) (by omega)]
  have frame := resizeHole_frame (m := k.mem) (show longer < 4294967296 by omega) at_
  have entries := holes.entries_same frame (by
    intro x member
    simp only [sizeField, Set.mem_union, Set.mem_Ico] at member ⊢
    omega)
  have sized : headerSize (resizeHole h longer k.mem) h = longer :=
    resizeHole_size (by omega) at_ (by omega)
  refine ⟨show k.heap.startAddress ≤ stop by omega, within, limit, holes.apart, holes.array,
    holes.room, ?_⟩
  intro g member
  change g ∈ k.heap.index.entries (resizeHole h longer k.mem) at member
  rw [entries] at member
  change k.heap.startAddress ≤ g ∧ 20 ≤ headerSize (resizeHole h longer k.mem) g ∧
    g + headerSize (resizeHole h longer k.mem) g ≤ stop
  by_cases here : g = h
  · subst here
    omega
  · obtain ⟨lower', room', upper'⟩ := holes.inside g member
    have before := spread g member (Nat.lt_of_le_of_ne (greatest g member) here)
    have kept : headerSize (resizeHole h longer k.mem) g = headerSize k.mem g := by
      apply headerSize_congr
      refine frame.mono ?_
      intro x inHeader written
      simp only [sizeField, Set.mem_union, Set.mem_Ico] at inHeader written
      omega
    omega

/-- The index still holds nothing but holes when the heap has grown. -/
theorem grown (holes : Holes k) (grown : Grown kmallocInt newSize k k1) : Holes k1 := by
  have above := grown.ext.stop
  obtain ⟨k2, ⟨frames, pages, rfl⟩, outcome⟩ := grown.ext.grows kmallocInt
  rw [grown.result] at outcome
  cases outcome with
  | inl null =>
    obtain ⟨-, added⟩ := null
    cases inserted : insertOrderedArray k.heap.endAddress k.heap.index
      (newHole k.heap.endAddress (grownEnd newSize k - k.heap.endAddress) k.mem) with
    | error halt =>
      rw [inserted] at added
      cases added
    | ok r =>
      rw [inserted] at added
      cases added
      exact holes.adds grown.chunk above.2 grown.spare inserted
  | inr tall =>
    obtain ⟨h, listed, -, greatest, stretched⟩ := tall
    cases stretched
    exact holes.stretches grown.chunk above.2 (fun g member => grown.spread g member h listed)
      listed greatest

end Holes

/-! ## The hole that is cut -/

-- what `alloc` asks `find_smallest_hole` for
def asked (size : Nat) : Nat := Word32.add (Word32.add size sizeofHeader) sizeofFooter

/-- The search stops at a hole, if need be after the heap has grown. -/
inductive Finds (kmallocInt : Kmalloc) (size pageAlign : Nat) : Kernel → Nat → Kernel → Prop
  | here {k : Kernel} {iterator : Nat} : iterator < k.heap.index.size →
      holeFits (asked size) pageAlign k.mem (k.heap.index.slot k.mem iterator) = true →
      (∀ i < iterator, holeFits (asked size) pageAlign k.mem (k.heap.index.slot k.mem i) = false) →
      Finds kmallocInt size pageAlign k iterator k
  | grown {k k1 k2 : Kernel} {iterator : Nat} :
      (∀ h ∈ k.heap.index.entries k.mem, holeFits (asked size) pageAlign k.mem h = false) →
      Grown kmallocInt (asked size) k k1 → Finds kmallocInt size pageAlign k1 iterator k2 →
      Finds kmallocInt size pageAlign k iterator k2

theorem alloc_finds {fuel : Nat} (finds : Finds kmallocInt size pageAlign k iterator k1)
    (holes : Holes k) (result : alloc kmallocInt fuel size pageAlign k = .ok (p, k')) :
    Holes k1 ∧ iterator < k1.heap.index.size ∧
      holeFits (asked size) pageAlign k1.mem (k1.heap.index.slot k1.mem iterator) = true ∧
      takeHole size (asked size) pageAlign iterator k1 = .ok (p, k') := by
  induction finds generalizing fuel with
  | @here k iterator within fits first =>
    refine ⟨holes, within, fits, ?_⟩
    cases fuel with
    | zero => cases result
    | succ fuel =>
      have listed : iterator < (k.heap.index.entries k.mem).length := by
        rw [OrderedArray.length_entries]
        exact within
      have stops : (k.heap.index.entries k.mem).findIdx (holeFits (asked size) pageAlign k.mem) =
          iterator := by
        rw [List.findIdx_eq listed]
        refine ⟨by rw [OrderedArray.getElem_entries]; exact fits, fun i lower => ?_⟩
        rw [OrderedArray.getElem_entries]
        exact first i lower
      have found : findSmallestHole (asked size) pageAlign k.heap k.mem = .ok iterator := by
        rw [← stops]
        refine findSmallestHole_found ⟨_, List.getElem_mem listed, ?_⟩
        rw [OrderedArray.getElem_entries]
        exact fits
      have few : iterator ≠ noHole := by
        have room := holes.room
        have array := holes.array
        unfold noHole
        omega
      rw [alloc] at result
      change findSmallestHole (asked size) pageAlign k.heap k.mem >>= _ = _ at result
      rw [found, ok_bind, if_neg few] at result
      exact result
  | @grown k k1 k2 iterator none grown finds ih =>
    cases fuel with
    | zero => cases result
    | succ fuel =>
      rw [alloc] at result
      change findSmallestHole (asked size) pageAlign k.heap k.mem >>= _ = _ at result
      rw [findSmallestHole_missing none, ok_bind, if_pos rfl] at result
      change growHeap kmallocInt (asked size) k >>= _ = _ at result
      rw [grown.result, ok_bind] at result
      exact ih (holes.grown grown) result

/-! ## The block -/

-- where the header of the block goes, in the hole or, close to the end of a page, in front of it
def blockStart (pageAlign h : Nat) : Nat :=
  if pageAlign ≠ 0 ∧ 4096 ≤ h then h + 4084 - h % 4096 else h

theorem sizeField_congr {m' : Mem} {h : Nat} (same : Set.EqOn m' m (sizeField h)) :
    headerSize m' h = headerSize m h :=
  read32_congr same

theorem placeBlock_size {pos total payload : Nat}
    (result : placeBlock pos total payload newSize k = .ok (p, k')) (least : 20 ≤ newSize)
    (behind : payload + 20 = newSize) (low : pos + newSize < 4294967296)
    (word : total < 4294967296) (clear : 8 ≤ pos ∧ total ≤ 8 ∨ 20 ≤ total)
    (apart : total ≠ newSize → Disjoint (k.heap.index.region (k.heap.index.size + 1))
      (sizeField pos)) :
    headerSize k'.mem pos = newSize := by
  let c : Chunk := { addr := pos, size := newSize, hole := false, room := least }
  have payload_eq : payload = newSize - 20 := by omega
  have sized : headerSize (writeBlock pos payload newSize k.mem) pos = newSize := by
    rw [payload_eq]
    exact (writeBlock_correct k.mem c rfl low).1.2.2
  cases (placeBlock_cases result).2 with
  | inl whole =>
    rw [whole.2]
    exact sized
  | inr split =>
    obtain ⟨more, holeHeader, m, index, m', written, inserted, rfl⟩ := split
    have first := writeRemainder_fst pos payload (Word32.sub total newSize) k.heap.endAddress
      (writeBlock pos payload newSize k.mem)
    rw [written] at first
    change holeHeader = _ at first
    have longer : total ≠ newSize := by
      rintro rfl
      rw [Word32.sub_of_le (Nat.le_refl _) word, Nat.sub_self] at more
      exact Nat.lt_irrefl 0 more
    obtain ⟨-, -, outside⟩ := insertOrderedArray_returns inserted (first ▸ Word32.add_lt _ _)
    have kept : Set.EqOn m' m (sizeField pos) :=
      outside.mono fun x inField inArray => Set.disjoint_left.mp (apart longer) inArray inField
    -- the footer of what is left goes in front of the size of the block or behind it
    have remainder : Set.EqOn m (writeBlock pos payload newSize k.mem) (sizeField pos) := by
      have header : Word32.add (Word32.add (Word32.add pos sizeofHeader) payload) sizeofFooter =
          pos + newSize := by
        simp only [sizeofHeader, sizeofFooter, Word32.add]
        omega
      obtain ⟨footer, footer_eq, away⟩ : ∃ footer, Word32.sub (Word32.add (pos + newSize)
          (Word32.sub total newSize)) sizeofFooter = footer ∧
            (footer + 8 ≤ pos + 8 ∨ pos + 12 ≤ footer) := by
        refine ⟨_, rfl, ?_⟩
        simp only [sizeofFooter, Word32.add, Word32.sub]
        omega
      intro x inside
      simp only [sizeField, Set.mem_Ico] at inside
      simp only [writeRemainder, header, footer_eq] at written
      split at written
      next =>
        cases written
        simp only [setHeaderMagic, setHeaderIsHole, setHeaderSize, setFooterMagic,
          setFooterHeader]
        simp (disch := omega) only [write32_apply_ne, write8_apply_ne]
      next =>
        cases written
        simp only [setHeaderMagic, setHeaderIsHole, setHeaderSize]
        simp (disch := omega) only [write32_apply_ne, write8_apply_ne]
    change headerSize m' pos = newSize
    rw [sizeField_congr (kept.trans remainder)]
    exact sized

/-- The block has room for the request, and it lies in the hole. -/
structure Enough (size p h total : Nat) (k' : Kernel) : Prop where
  payload : p + size + sizeofFooter ≤
    Word32.sub p sizeofHeader + headerSize k'.mem (Word32.sub p sizeofHeader)
  lower : h ≤ Word32.sub p sizeofHeader
  upper : Word32.sub p sizeofHeader + headerSize k'.mem (Word32.sub p sizeofHeader) ≤ h + total

/-- The request with its header and footer does not wrap around, and it lies in the hole. -/
structure LiesIn (size pageAlign h total : Nat) : Prop where
  word : size + 20 < 4294967296
  lower : h ≤ blockStart pageAlign h
  upper : blockStart pageAlign h + (size + 20) ≤ h + total

/--
The footer behind what is left does not hit the size of the block, and there is a place in the index
for it.
-/
structure Clear (size pageAlign h total : Nat) (k : Kernel) : Prop where
  rest : pageAlign ≠ 0 → 4096 ≤ h →
    (splitFront h total k.mem).2.1 ≤ 8 ∨ 20 ≤ (splitFront h total k.mem).2.1
  spare : pageAlign ≠ 0 → 4096 ≤ h →
    (splitFront h total k.mem).2.1 ≠ blockLength total (size + 20) →
      k.heap.index.size < k.heap.index.maxSize

section Take

variable {h total : Nat}

theorem cuts_iff (word : h < 4294967296) : h &&& 0xFFFFF000 ≠ 0 ↔ 4096 ≤ h := by
  rw [Word32.and_page_mask word]
  omega

theorem takeHole_start (holes : Holes k) (within : iterator < k.heap.index.size)
    (here : k.heap.index.slot k.mem iterator = h) (word : h + 4096 < 4294967296)
    (result : takeHole size newSize pageAlign iterator k = .ok (p, k')) :
    p = blockStart pageAlign h + 12 := by
  have small : k.heap.index.size < 4294967296 := by
    have room := holes.room
    have array := holes.array
    omega
  have mask := cuts_iff (h := h) (by omega)
  unfold blockStart
  by_cases cut : pageAlign ≠ 0 ∧ 4096 ≤ h
  · rw [if_pos cut]
    cases split : splitFront h (headerSize k.mem h) k.mem with
    | mk pos r =>
      have start := splitFront_pos k.mem (headerSize k.mem h) cut.2 (show h < 4294967296 by omega)
      rw [split] at start
      change pos + h % 4096 = h + 4084 at start
      rw [← here] at split
      rw [takeHole_split within cut.1 (here.symm ▸ mask.mpr cut.2) rfl split] at result
      rw [(placeBlock_cases result).1, sizeofHeader, Word32.add_of_lt (by omega)]
      omega
  · rw [if_neg cut]
    have plain : ¬ (pageAlign ≠ 0 ∧ k.heap.index.slot k.mem iterator &&& 0xFFFFF000 ≠ 0) := by
      rw [here, mask]
      exact cut
    rw [takeHole_ptr within small plain result, here, sizeofHeader, Word32.add_of_lt (by omega)]

theorem takeHole_size (holes : Holes k) (within : iterator < k.heap.index.size)
    (here : k.heap.index.slot k.mem iterator = h) (sized : headerSize k.mem h = total)
    (lies : LiesIn size pageAlign h total) (clear : Clear size pageAlign h total k)
    (result : takeHole size (size + 20) pageAlign iterator k = .ok (p, k')) :
    headerSize k'.mem (blockStart pageAlign h) = blockLength total (size + 20) := by
  have listed : h ∈ k.heap.index.entries k.mem :=
    List.mem_map.mpr ⟨iterator, List.mem_range.mpr within, here⟩
  obtain ⟨lower, room, upper⟩ := holes.inside h listed
  have limit := holes.limit
  have bound := holes.bound
  obtain ⟨-, first, last⟩ := lies
  rw [sized] at room upper
  have fits : size + 20 ≤ total := by omega
  have longer := blockLength_le fits
  have mask := cuts_iff (h := h) (by omega)
  have apart {n : Nat} (few : n ≤ k.heap.index.maxSize) :
      Disjoint (k.heap.index.region n) (sizeField (blockStart pageAlign h)) :=
    holes.apart.mono (IndexIn.region_subset few) (Set.Ico_subset_Ico (by omega) (by omega))
  have total_eq : headerSize k.mem (k.heap.index.slot k.mem iterator) = total := by
    rw [here]
    exact sized
  by_cases cut : pageAlign ≠ 0 ∧ 4096 ≤ h
  · have begins : blockStart pageAlign h = h + 4084 - h % 4096 := if_pos cut
    obtain ⟨r, split⟩ : ∃ r, splitFront h total k.mem = r := ⟨_, rfl⟩
    obtain ⟨pos, rest, m⟩ := r
    have start := splitFront_pos k.mem total cut.2 (show h < 4294967296 by omega)
    have word : (splitFront h total k.mem).2.1 < 4294967296 := Word32.sub_lt _ _
    have away := clear.rest cut.1 cut.2
    have spare := clear.spare cut.1 cut.2
    rw [split] at start word away spare
    change pos + h % 4096 = h + 4084 at start
    change rest < 4294967296 at word
    change rest ≤ 8 ∨ 20 ≤ rest at away
    change rest ≠ blockLength total (size + 20) → _ at spare
    obtain rfl : pos = blockStart pageAlign h := by omega
    rw [← here] at split
    rw [takeHole_split within cut.1 (here.symm ▸ mask.mpr cut.2) total_eq split,
      takenSize_eq fits (by omega), takenPayload_eq fits (by omega), here] at result
    have clear' : 8 ≤ blockStart pageAlign h ∧ rest ≤ 8 ∨ 20 ≤ rest :=
      away.imp (fun few => ⟨by omega, few⟩) id
    exact placeBlock_size result (by omega) (by omega) (by omega) word clear'
      fun more => apart (spare more)
  · have begins : blockStart pageAlign h = h := if_neg cut
    rw [begins] at apart ⊢
    have plain : ¬ (pageAlign ≠ 0 ∧ k.heap.index.slot k.mem iterator &&& 0xFFFFF000 ≠ 0) := by
      rw [here, mask]
      exact cut
    have few := holes.room
    have array := holes.array
    obtain ⟨m, removed, -⟩ := removeOrderedArray_correct k.mem within (by omega)
    rw [takeHole_plain within plain total_eq removed, takenSize_eq fits (by omega),
      takenPayload_eq fits (by omega), here] at result
    refine placeBlock_size result (by omega) (by omega) (by omega) (by omega) (Or.inr room)
      fun _ => ?_
    exact apart (n := k.heap.index.size - 1 + 1) (by omega)

end Take

end GekonOS
