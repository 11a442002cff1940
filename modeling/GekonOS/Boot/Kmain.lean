import GekonOS.Boot.Paged
import GekonOS.Frames.Exhaustion
import GekonOS.Heap.Pages
import GekonOS.Kernel.Kernel

set_option autoImplicit false

namespace GekonOS.Kmain

open ByteMemory Loop Transition IdentityMap Placement Paged Exhaustion HeapState

/-!
# The memory that `kmain` hands over

`clear_frame` is given frame numbers for addresses, so what it frees is one of the first 128 frames.
No other frame of the image is handed out again, as long as the bitmap stays in front of the
directory.
-/

theorem alloc_page {k : Kernel} {size : Nat} (kmallocInt : Kmalloc) (fuel : Nat)
    (sound : Sound k [firstHole]) (fits : size ≤ 516068) :
    ∃ k' front block rest, GekonOS.alloc kmallocInt (fuel + 1) size 1 k = .ok (0x01082000, k') ∧
      Sound k' [front, block, rest] ∧ front.hole = true ∧ block.hole = false ∧
      block.addr + 12 = 0x01082000 ∧ rest.hole = true ∧
      k' = k.withIndex { k.heap.index with size := k'.heap.index.size } k'.mem := by
  have wf := sound.wf
  have member : firstHole ∈ [firstHole] := List.mem_singleton_self _
  have total : headerSize k.mem firstHole.addr = 0x7F000 := wf.headerSize_entry member
  have entries : k.heap.index.entries k.mem = [firstHole.addr] :=
    List.perm_singleton.mp wf.entries
  have start : firstHole.addr = 0x01081000 := rfl
  have skip : skipped firstHole.addr = 4084 := by decide
  have enough : holeFits (size + 20) 1 k.mem firstHole.addr = true := by
    rw [holeFits_small (by decide) (by omega), total, skip]
    omega
  have first : FirstFits size 1 k firstHole.addr := by
    unfold FirstFits
    rw [entries, List.find?_cons_of_pos enough]
  obtain ⟨iterator, within, found, -, taken⟩ := alloc_takes kmallocInt fuel
    wf.index_lt_noHole (show size + 20 < 4294967296 by omega)
    ⟨firstHole.addr, by rw [entries]; exact List.mem_singleton_self _, enough⟩
  have here := first.slot_eq within found
  have length : frontLength firstHole.addr = 4084 := by decide
  have size_eq : firstHole.size = 0x7F000 := rfl
  have spare : k.heap.index.size < k.heap.index.maxSize := by
    have one : k.heap.index.size = 1 := by
      rw [← OrderedArray.length_entries (m := k.mem), entries]
      rfl
    rw [one]
    exact sound.capacity
  have alone : Sound k ([] ++ firstHole :: []) := sound
  have room : frontLength firstHole.addr + (size + 20) + 20 ≤ firstHole.size := by omega
  obtain ⟨block, rest, k', result, addr, size', cut⟩ := takeHole_split_cuts alone.others rfl
    within here (show (1 : Nat) ≠ 0 by decide) (by decide)
    (show 20 ≤ frontLength firstHole.addr by decide) (Or.inr ⟨room, spare⟩)
  have after := alone.cut cut
  have lower : k.heap.startAddress = 0x01081000 := (Layout.cons.mp wf.layout).1.symm
  have upper : k.heap.startAddress + firstHole.size = k.heap.endAddress :=
    (Layout.cons.mp wf.layout).2.2.2.tiles
  have same := cut.same
  have few := cut.few.2
  obtain ⟨r, rfl⟩ : ∃ r, rest = [r] := by
    cases rest with
    | nil =>
      obtain ⟨-, -, -, behind⟩ := Layout.cons.mp cut.wf.layout
      obtain ⟨-, -, -, none⟩ := Layout.cons.mp behind
      have stop : k'.heap.startAddress + frontLength firstHole.addr + block.size =
        k'.heap.endAddress := none.tiles
      rw [same] at stop
      change k.heap.startAddress + _ + _ = k.heap.endAddress at stop
      omega
    | cons r more =>
      cases more with
      | nil => exact ⟨r, rfl⟩
      | cons _ _ => simp at few
  have ptr : block.addr + 12 = 0x01082000 := by omega
  refine ⟨k', _, block, r, ?_, after, rfl, cut.used, ptr,
    cut.restHoles r (List.mem_singleton_self r), same⟩
  rw [taken, result, ptr]

theorem free_page {k : Kernel} {front block rest : Chunk} (kmallocInt : Kmalloc)
    (sound : Sound k [front, block, rest]) (frontFree : front.hole = true)
    (used : block.hole = false) (restFree : rest.hole = true) :
    ∃ k' hole, GekonOS.free kmallocInt (block.addr + 12) k = .ok k' ∧ Sound k' [hole] ∧
      hole.hole = true ∧ hole.addr = front.addr ∧ hole.size = 0x70000 := by
  have start : front.addr = k.heap.startAddress := (Layout.cons.mp sound.wf.layout).1
  have calm : FreeCalm k [] (some front) block (some rest) [] := by
    constructor
    case noFooter =>
      intro _ none
      cases none
    case room =>
      intro none
      cases none
    case inner => exact fun more => absurd rfl more
    case low =>
      intro _
      rw [leftmost, start, Nat.sub_self]
      decide
    case noHeader =>
      intro _ none
      cases none
  have beside : Beside [] (some front) (some rest) [] := by
    constructor
    case leftHole =>
      rintro l ⟨⟩
      exact frontFree
    case noLeft =>
      intro none
      cases none
    case rightHole =>
      rintro r ⟨⟩
      exact restFree
    case noRight =>
      intro none
      cases none
  obtain ⟨k', hole, freed, frees, after⟩ := calm.frees_end sound used beside kmallocInt
  refine ⟨k', hole, freed, after, frees.free, frees.start.trans (mergedHole_addr ..), ?_⟩
  have size : hole.size = k.heap.startAddress + heapMinSize - front.addr := frees.size
  rw [size, start, Nat.add_sub_cancel_left]
  rfl

/-! ## What the heap leaves of the mappings made at boot -/

/-- A frame from the first megabyte up is free, and its bit lies in front of the directory. -/
def FrameLeft (k : Kernel) : Prop :=
  ∃ frame, 256 ≤ frame ∧ frame < 32 * (k.nframes / 32) ∧
    k.framesAddr + 4 * (frame / 32) + 4 ≤ k.directoryAddr ∧ frameBit k.frames frame = false

variable {nframes : Nat} {k0 r k : Kernel}

-- what no call of the heap changes
structure Fixed (nframes : Nat) (k0 k : Kernel) : Prop where
  directory : k.directory = k0.directory
  directoryAddr : k.directoryAddr = k0.directoryAddr
  framesAddr : k.framesAddr = k0.framesAddr
  count : k.nframes = nframes
  start : k.heap.startAddress = 0x01081000
  limit : k.heap.maxAddress = kheapMax

theorem Fixed.entryOf (fixed : Fixed nframes k0 k) (page : Nat) :
    k.entryOf page = k0.entryOf page := by
  unfold Kernel.entryOf
  rw [fixed.directory]

-- whatever becomes of the memory, the bitmap, the entries and the end of the heap
theorem Fixed.next (fixed : Fixed nframes k0 k) (m : ByteMemory.Mem) (frames : Nat → BitVec 32)
    (pages : Nat → Page) (index : OrderedArray) (stop : Nat) :
    Fixed nframes k0 { k with
      mem := m, frames := frames, pages := pages,
      heap := { k.heap with index := index, endAddress := stop } } :=
  ⟨fixed.directory, fixed.directoryAddr, fixed.framesAddr, fixed.count, fixed.start, fixed.limit⟩

-- the bit of a frame lies in front of the directory
def Ahead (k0 : Kernel) (frame : Nat) : Prop :=
  k0.framesAddr + 4 * (frame / 32) + 4 ≤ k0.directoryAddr

/--
The image is mapped to itself, and the part of it from the 128th page up to nothing else. From the
directory on no word of the bitmap has changed since `r`.
-/
structure Kept (nframes : Nat) (k0 r k : Kernel) : Prop where
  image : ∀ page < limitPage nframes, k.pages (k0.entryOf page) = k0.pages (k0.entryOf page)
  taken : ∀ frame, 128 ≤ frame → frame < limitPage nframes → frameBit k.frames frame = true
  heap : ∀ page, HeapPage page → (k.pages (k0.entryOf page)).present = true ∧
    (frameOf k (k0.entryOf page) < 128 ∨ limitPage nframes ≤ frameOf k (k0.entryOf page)) ∧
    Ahead k0 (frameOf k (k0.entryOf page))
  words : ∀ word, k0.directoryAddr < k0.framesAddr + 4 * word + 4 → k.frames word = r.frames word

/-- The state, as long as a frame is left. -/
structure Holding (nframes : Nat) (k0 r k : Kernel) : Prop where
  fixed : Fixed nframes k0 k
  left : FrameLeft k → FrameLeft r ∧ Kept nframes k0 r k

/-- What the tables in front of `create_heap` look like. -/
structure Mapping (nframes : Nat) (k0 : Kernel) : Prop where
  tables : Tables 0x200000 k0
  has : ∀ page, page < limitPage nframes ∨ HeapPage page → k0.HasTable page
  few : nframes ≤ 1048576
  room : k0.framesAddr + 4096 ≤ k0.directoryAddr ∧ k0.directoryAddr ≤ k0.framesAddr + 0x9000

namespace Mapping

theorem heap_ne (mapping : Mapping nframes k0) {page other : Nat} (inHeap : HeapPage page)
    (known : other < limitPage nframes ∨ HeapPage other) (distinct : other ≠ page) :
    k0.entryOf other ≠ k0.entryOf page := fun same =>
  distinct (mapping.tables.entryOf_injective (mapping.has other known)
    (mapping.has page (Or.inr inHeap)) same)

-- the pages of the image lie below those of the heap
theorem image_ne (mapping : Mapping nframes k0) {page other : Nat} (inHeap : HeapPage page)
    (below : other < limitPage nframes) : k0.entryOf other ≠ k0.entryOf page := by
  obtain ⟨-, high⟩ := limitPage_bounds mapping.few
  have lower := (heapPage_iff page).mp inHeap
  exact mapping.heap_ne inHeap (Or.inl below) (by omega)

/-- `alloc_frame` hands out the first free frame, which is none of those of the image. -/
theorem hands_out (mapping : Mapping nframes k0) (fixed : Fixed nframes k0 k) (left : FrameLeft k)
    (kept : Kept nframes k0 r k) {page : Nat} (isKernel isWriteable : Nat)
    (none : frameOf k page = 0) :
    ∃ frame, frame < 1048576 ∧ Ahead k0 frame ∧ (frame < 128 ∨ limitPage nframes ≤ frame) ∧
      (allocFrame page isKernel isWriteable k).2 = { k with
        frames := setFrame (frame * 4096) k.frames
        pages := Function.update k.pages page { k.pages page with
          present := true
          rw := decide (isWriteable ≠ 0)
          user := decide (isKernel = 0)
          frameAddr := BitVec.ofNat 20 frame } } := by
  obtain ⟨free, -, within, ahead, clear⟩ := left
  have few := mapping.few
  obtain ⟨frame, small, first, before, -, result⟩ := allocFrame_correct isKernel isWriteable none
    ⟨free, within, clear⟩ (by rw [fixed.count]; exact few)
  have atMost : frame ≤ free := by
    by_contra later
    rw [before free (by omega)] at clear
    cases clear
  refine ⟨frame, small, ?_, ?_, by rw [result]⟩
  · unfold Ahead
    rw [← fixed.framesAddr, ← fixed.directoryAddr]
    omega
  · by_contra inImage
    rw [kept.taken frame (by omega) (by omega)] at first
    cases first

theorem allocFrame (mapping : Mapping nframes k0) {page isKernel isWriteable : Nat}
    (inHeap : HeapPage page) (holding : Holding nframes k0 r k) :
    Holding nframes k0 r (GekonOS.allocFrame (k.entryOf page) isKernel isWriteable k).2 := by
  have fixed := holding.fixed
  rw [fixed.entryOf]
  by_cases none : frameOf k (k0.entryOf page) = 0
  · have zero : (k.pages (k0.entryOf page)).frameAddr = 0 := BitVec.eq_of_toNat_eq none
    have shape : (GekonOS.allocFrame (k0.entryOf page) isKernel isWriteable k).2 = { k with
        frames := setFrame (Word32.mul (firstFreeFrame k.nframes k.frames) pageSize) k.frames
        pages := Function.update k.pages (k0.entryOf page) { k.pages (k0.entryOf page) with
          present := true
          rw := decide (isWriteable ≠ 0)
          user := decide (isKernel = 0)
          frameAddr := BitVec.ofNat 20 (firstFreeFrame k.nframes k.frames) } } := by
      simp only [GekonOS.allocFrame, zero, if_true]
    refine ⟨?_, ?_⟩
    · rw [shape]
      exact fixed.next k.mem _ _ k.heap.index k.heap.endAddress
    · intro left
      -- a frame that is free now was free before
      have before : FrameLeft k := by
        rw [shape] at left
        obtain ⟨free, low, within, ahead, clear⟩ := left
        change frameBit (setFrame _ k.frames) free = false at clear
        rw [frameBit_setFrame, Bool.or_eq_false_iff] at clear
        exact ⟨free, low, within, ahead, clear.1⟩
      obtain ⟨leftAtFirst, kept⟩ := holding.left before
      obtain ⟨frame, small, ahead, apart, result⟩ :=
        mapping.hands_out fixed before kept isKernel isWriteable none
      refine ⟨leftAtFirst, ?_⟩
      rw [result]
      constructor
      case image =>
        exact fun other below => (Function.update_of_ne (mapping.image_ne inHeap below) ..).trans
          (kept.image other below)
      case taken =>
        intro other low below
        rw [frameBit_setFrame, kept.taken other low below, Bool.true_or]
      case heap =>
        intro other known
        by_cases same : other = page
        · subst same
          simp only [frameOf, Function.update_self, BitVec.toNat_ofNat,
            Nat.mod_eq_of_lt (show frame < 2 ^ 20 from small)]
          exact ⟨trivial, apart, ahead⟩
        · simp only [frameOf, Function.update_of_ne (mapping.heap_ne inHeap (Or.inr known) same)]
          exact kept.heap other known
      case words =>
        intro word behind
        refine (setFrame_other _ ?_).trans (kept.words word behind)
        unfold Ahead at ahead
        simp only [frameWord, indexFromBit, pageSize]
        omega
  · rw [allocFrame_held isKernel isWriteable none]
    exact holding

-- a frame number has twenty bits, and the bit of a 4096th of it is cleared
theorem freeFrame_eq {page : Nat} (held : frameOf k page ≠ 0) :
    GekonOS.freeFrame page k = { k with
      frames := clearFrame (frameOf k page) k.frames
      pages := Function.update k.pages page { k.pages page with frameAddr := 0 } } ∧
    frameOf k page < 1048576 := by
  have nonzero : (k.pages page).frameAddr ≠ 0 := fun zero => held (by rw [frameOf, zero]; rfl)
  refine ⟨?_, BitVec.isLt _⟩
  unfold GekonOS.freeFrame
  rw [if_pos nonzero]
  rfl

theorem freeFrame (mapping : Mapping nframes k0) {page : Nat} (inHeap : HeapPage page)
    (holding : Holding nframes k0 r k) :
    Holding nframes k0 r (GekonOS.freeFrame (k.entryOf page) k) := by
  have fixed := holding.fixed
  obtain ⟨room, most⟩ := mapping.room
  rw [fixed.entryOf]
  by_cases none : frameOf k (k0.entryOf page) = 0
  · rw [freeFrame_idle none]
    exact holding
  · obtain ⟨result, small⟩ := freeFrame_eq none
    rw [result]
    refine ⟨fixed.next k.mem _ _ k.heap.index k.heap.endAddress, ?_⟩
    rintro ⟨free, low, within, ahead, clear⟩
    change frameBit (clearFrame _ k.frames) free = false at clear
    rw [frameBit_clearFrame, decide_eq_true (show free ≠ _ by omega), Bool.and_true] at clear
    obtain ⟨leftAtFirst, kept⟩ := holding.left ⟨free, low, within, ahead, clear⟩
    obtain ⟨-, -, front⟩ := kept.heap page inHeap
    unfold Ahead at front
    refine ⟨leftAtFirst, ?_⟩
    constructor
    case image =>
      exact fun other below => (Function.update_of_ne (mapping.image_ne inHeap below) ..).trans
        (kept.image other below)
    case taken =>
      intro frame low below
      rw [frameBit_clearFrame, kept.taken frame low below, Bool.true_and, decide_eq_true_eq]
      omega
    case heap =>
      intro other known
      by_cases same : other = page
      · subst same
        simp only [frameOf, Function.update_self]
        refine ⟨(kept.heap other known).1, Or.inl (by decide), ?_⟩
        change k0.framesAddr + 4 * (0 / 32) + 4 ≤ k0.directoryAddr
        omega
      · simp only [frameOf, Function.update_of_ne (mapping.heap_ne inHeap (Or.inr known) same)]
        exact kept.heap other known
    case words =>
      intro word behind
      refine (clearFrame_other _ ?_).trans (kept.words word behind)
      simp only [frameWord, indexFromBit, pageSize]
      omega

theorem inside (fixed : Fixed nframes k0 k) {a : Nat} (lower : k.heap.startAddress ≤ a)
    (upper : a < k.heap.maxAddress) : HeapPage (a / 4096) := by
  rw [fixed.start] at lower
  rw [fixed.limit] at upper
  simp only [kheapMax] at upper
  rw [heapPage_iff]
  omega

theorem mapped (mapping : Mapping nframes k0) (fixed : Fixed nframes k0 k) :
    Mapped k k.heap.maxAddress := by
  intro a lower upper
  unfold Kernel.HasTable
  rw [fixed.directory]
  exact mapping.has _ (Or.inr (inside fixed lower upper))

theorem survives (mapping : Mapping nframes k0) (r : Kernel) :
    Survives {page | HeapPage page} (Holding nframes k0 r) := by
  refine ⟨⟨?_, ?_, ?_, ?_⟩, ?_⟩
  · exact fun k holding => mapping.mapped holding.fixed
  · exact fun k a holding lower upper => inside holding.fixed lower upper
  · intro k mem index stop holding
    refine ⟨holding.fixed.next mem k.frames k.pages index stop, fun left => ?_⟩
    obtain ⟨leftAtFirst, kept⟩ := holding.left left
    exact ⟨leftAtFirst, kept.image, kept.taken, kept.heap, kept.words⟩
  · exact fun k page inHeap has holding => mapping.freeFrame inHeap holding
  · exact fun k page isKernel isWriteable inHeap has holding => mapping.allocFrame inHeap holding

theorem frameLeft (mapping : Mapping nframes k0) :
    SurvivesFree {page | HeapPage page} fun k => Fixed nframes k0 k ∧ FrameLeft k := by
  constructor
  case mapped => exact fun k ⟨fixed, _⟩ => mapping.mapped fixed
  case inside => exact fun k a ⟨fixed, _⟩ lower upper => inside fixed lower upper
  case elsewhere =>
    exact fun k mem index stop ⟨fixed, left⟩ => ⟨fixed.next mem k.frames k.pages index stop, left⟩
  case freeFrame =>
    rintro k page - - ⟨fixed, left⟩
    by_cases none : frameOf k (k.entryOf page) = 0
    · rw [freeFrame_idle none]
      exact ⟨fixed, left⟩
    · obtain ⟨free, low, within, ahead, clear⟩ := left
      rw [(freeFrame_eq none).1]
      refine ⟨fixed.next k.mem _ _ k.heap.index k.heap.endAddress, free, low, within, ahead, ?_⟩
      rw [frameBit_clearFrame, clear, Bool.false_and]

end Mapping

/-! ## Up to the first interrupt -/

theorem boot_created (fuel availableMem : Nat) {k : Kernel} (start : Start availableMem k)
    (enough : allocCalls (framesOf availableMem) ≤ 32 * (framesOf availableMem / 32)) :
    ∃ k1 k2 k3 addr, pagingInit fuel availableMem k = .ok k1 ∧
      heapInstall fuel k1 = .ok { k2 with kheap := addr } ∧ addr ≠ 0 ∧ Created k3 k2 ∧
      Mapping (framesOf availableMem) k3 ∧ Fixed (framesOf availableMem) k3 k2 ∧
      Kept (framesOf availableMem) k3 k2 k2 ∧
      (allocCalls (framesOf availableMem) < 32 * (framesOf availableMem / 32) → FrameLeft k2) ∧
      ∀ page < limitPage (framesOf availableMem),
        Present k3 page ∧ frameNumber k3 page = page := by
  have few := framesOf_le availableMem
  obtain ⟨low, high⟩ := imageEnd_bounds few
  obtain ⟨-, below, above⟩ := directoryAt_bounds few
  unfold allocCalls at enough
  obtain ⟨k1, booted, imaging⟩ := pagingInit_correct fuel start (by omega)
  obtain ⟨i2, k2, installed, installing⟩ := installPages_correct fuel imaging (by omega) few
  obtain ⟨i3, k3, reserved, reserving⟩ := heapPages_correct fuel installing (by omega) few
  have placement := reserving.placement
  rw [show heapTables 4095 = 4 by decide] at placement
  have aligned : alignedAddress k3.placementAddress 1 =
      4096 * (imageEnd (framesOf availableMem) + 9) := by
    rw [alignedAddress, placement, if_pos ⟨rfl, by omega⟩, Nat.mul_div_cancel_left _ (by decide)]
    omega
  have fits : alignedAddress k3.placementAddress 1 + 32 < 4294967296 := by
    rw [aligned]
    omega
  obtain ⟨m, created, -, -⟩ :=
    installCreate_correct fuel k3 reserving.progress.tables.noHeap fits
  have limit : limitPage (framesOf availableMem) = imageEnd (framesOf availableMem) + 16 := rfl
  have holds (i : Nat) : k3.directory.Holds i ↔ i = 0 ∨ 4 ≤ i ∧ i < 8 := by
    rw [reserving.holds, show heapTables 4095 = 4 by decide]
  have has (page : Nat) (known : page < limitPage (framesOf availableMem) ∨ HeapPage page) :
      k3.HasTable page := by
    unfold Kernel.HasTable
    rw [holds]
    rw [heapPage_iff] at known
    omega
  have image (page : Nat) (below : page < limitPage (framesOf availableMem)) :
      Present k3 page ∧ frameNumber k3 page = page := by
    apply reserving.progress.entries
    rw [bootMap, if_pos (by omega)]
  have heap (page : Nat) (inHeap : HeapPage page) : Present k3 page ∧
      frameNumber k3 page = imageEnd (framesOf availableMem) + 16 + (page - 4096) := by
    apply reserving.progress.entries
    rw [heapPage_iff] at inHeap
    rw [bootMap, if_neg (by omega), if_pos inHeap]
  refine ⟨k1, _, k3, alignedAddress k3.placementAddress 1, booted, ?_, by rw [aligned]; omega,
    ⟨reserving.progress.tables.noHeap, fits, ⟨fuel, _, created⟩, ?_⟩,
    ⟨reserving.progress.tables, has, few, ?_⟩, ⟨rfl, rfl, rfl, reserving.progress.count, rfl, rfl⟩,
    ?_, ?_, image⟩
  · rw [installCreate] at created
    unfold heapInstall
    simp only [installed, ok_bind, reserved, created]
    rfl
  · intro a lower upper
    change 0x01081000 ≤ a at lower
    simp only [kheapMax] at upper
    refine has _ (Or.inr ?_)
    rw [heapPage_iff]
    omega
  · rw [reserving.framesAddr, reserving.directoryAddr]
    omega
  · refine ⟨fun _ _ => rfl, ?_, ?_, fun _ _ => rfl⟩
    · intro frame _ below
      change frameBit k3.frames frame = true
      rw [reserving.progress.bitmap frame (by omega)]
      exact decide_eq_true (by omega)
    · intro page inHeap
      obtain ⟨present, number⟩ := heap page inHeap
      rw [heapPage_iff] at inHeap
      refine ⟨present.2, Or.inr ?_, ?_⟩
      · change _ ≤ frameNumber k3 page
        omega
      · change Ahead k3 (frameNumber k3 page)
        rw [Ahead, number, reserving.framesAddr, reserving.directoryAddr]
        omega
  · intro more
    have next := reserving.progress.bitmap (imageEnd (framesOf availableMem) + 16 + 4095) more
    rw [decide_eq_false (Nat.lt_irrefl _)] at next
    refine ⟨imageEnd (framesOf availableMem) + 16 + 4095, by omega, ?_, ?_, next⟩
    · change _ < 32 * (k3.nframes / 32)
      rw [reserving.progress.count]
      exact more
    · change k3.framesAddr + _ + 4 ≤ k3.directoryAddr
      rw [reserving.framesAddr, reserving.directoryAddr]
      omega

-- the heap does not look at the pointer to it
theorem Sound.withKheap {cs : List Chunk} (sound : Sound k cs) (addr : Nat) :
    Sound { k with kheap := addr } cs := by
  have wf := sound.wf
  exact ⟨⟨wf.layout, wf.entries, wf.lessThan, wf.room, wf.positive, wf.apart, wf.small⟩,
    sound.aligned, sound.low, sound.page, sound.least, sound.bound, sound.limit, sound.apart,
    sound.capacity, sound.mapped⟩

theorem Fixed.mapped (fixed : Fixed nframes k0 k) {page : Nat} (has : k0.HasTable page)
    (set : (k.pages (k0.entryOf page)).present = true) :
    Present k page ∧ frameNumber k page = frameOf k (k0.entryOf page) := by
  refine ⟨⟨?_, by rw [fixed.entryOf]; exact set⟩, by rw [frameNumber, fixed.entryOf]⟩
  unfold Kernel.HasTable
  rw [fixed.directory]
  exact has

theorem kmallocInt_heap {n size align p : Nat} {k' : Kernel} (heap : k.kheap ≠ 0)
    (served : GekonOS.alloc (kmallocInt n) (n + 1) size align k = .ok (p, k')) :
    kmallocInt (n + 1) size align false k = .ok (p, none, k') := by
  rw [kmallocInt, if_pos heap, served, ok_bind]
  rfl

/-- The heap is whole, and its pages and those of the image have frames apart from one another. -/
structure Keeps (nframes : Nat) (r : Kernel) (s : HeapState) : Prop where
  safe : s.Safe
  oneHole : s.live = [] → s.OneHole
  image : ∀ page < limitPage nframes,
    Present s.kernel page ∧ frameNumber s.kernel page = page
  heap : ∀ page, HeapPage page → Present s.kernel page ∧
    (frameNumber s.kernel page < 128 ∨ limitPage nframes ≤ frameNumber s.kernel page)
  words : ∀ word, s.kernel.directoryAddr < s.kernel.framesAddr + 4 * word + 4 →
    s.kernel.frames word = r.frames word

end GekonOS.Kmain
