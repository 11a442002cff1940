import GekonOS.Heap.Cut

set_option autoImplicit false

namespace GekonOS

open ByteMemory Loop Tiling

/-- What a page-aligned `alloc` shall do that has found room in `hole`. -/
structure ServesAligned (kmallocInt : Kmalloc) (fuel size : Nat) (k : Kernel) (pre : List Chunk)
    (hole : Chunk) (post front : List Chunk) (block : Chunk) (rest : List Chunk) (k' : Kernel) :
    Prop where
  result : alloc kmallocInt fuel size 1 k = .ok (block.addr + 12, k')
  aligned : (block.addr + 12) % 4096 = 0
  used : block.hole = false
  enough : size + 20 ≤ block.size
  frontFew : front.length ≤ 1
  frontHoles : ∀ c ∈ front, c.hole = true
  restFew : rest.length ≤ 1
  restHoles : ∀ c ∈ rest, c.hole = true
  bounds : k'.heap.startAddress = k.heap.startAddress ∧ k'.heap.endAddress = k.heap.endAddress
  wf : WellFormed Tagged k' (pre ++ (front ++ block :: rest) ++ post)
  unlisted : block.addr ∉ k'.heap.index.entries k'.mem
  frame : Set.EqOn k'.mem k.mem (hole.bytes ∪ k.heap.index.region k.heap.index.maxSize)ᶜ

/--
The condition on the hole: its payload is on the first page boundary, or there is room for a hole in
front of the next one, and what is left behind the block is nothing or a hole for the index.
-/
def SplitsRight (size : Nat) (k : Kernel) (hole : Chunk) : Prop :=
  hole.addr = 4084 ∨ 4096 ≤ hole.addr ∧ 20 ≤ frontLength hole.addr ∧
    (hole.size = frontLength hole.addr + (size + 20) ∨
      frontLength hole.addr + (size + 20) + 20 ≤ hole.size ∧
        k.heap.index.size < k.heap.index.maxSize)

instance (size : Nat) (k : Kernel) (hole : Chunk) : Decidable (SplitsRight size k hole) :=
  inferInstanceAs (Decidable (_ ∨ _ ∧ _ ∧ (_ ∨ _ ∧ _)))

variable {kmallocInt : Kmalloc} {fuel size iterator : Nat} {k k' : Kernel}
  {pre post front rest : List Chunk} {hole block : Chunk}

theorem unlisted {cs : List Chunk} {kernel : Kernel} (wf : WellFormed Tagged kernel cs)
    (member : block ∈ cs) (used : block.hole = false) :
    block.addr ∉ kernel.heap.index.entries kernel.mem := by
  intro listed
  obtain ⟨c, inList, free, same⟩ := wf.mem_entries.mp listed
  rw [wf.layout.tiles.addr_injective inList member same, used] at free
  exact absurd free (by decide)

theorem Cut.serves (cut : Cut size k pre hole post front block rest k')
    (result : alloc kmallocInt fuel size 1 k = .ok (block.addr + 12, k'))
    (onPage : (block.addr + 12) % 4096 = 0) :
    ServesAligned kmallocInt fuel size k pre hole post front block rest k' := by
  constructor
  case result => exact result
  case aligned => exact onPage
  case used => exact cut.used
  case enough => exact cut.enough
  case frontFew => exact cut.few.1
  case frontHoles => exact cut.frontHoles
  case restFew => exact cut.few.2
  case restHoles => exact cut.restHoles
  case bounds =>
    rw [cut.same]
    exact ⟨rfl, rfl⟩
  case wf => exact cut.wf
  case unlisted => exact unlisted cut.wf (by simp) cut.used
  case frame => exact cut.frame

/-- An aligned `alloc` has found `hole`. -/
structure Found (size iterator : Nat) (k : Kernel) (pre : List Chunk) (hole : Chunk)
    (post : List Chunk) : Prop where
  wf : WellFormed Tagged k (pre ++ hole :: post)
  free : hole.hole = true
  small : size < 1073741824
  within : iterator < k.heap.index.size
  here : k.heap.index.slot k.mem iterator = hole.addr
  fits : size + 20 + skipped hole.addr ≤ hole.size

namespace Found

theorem member (_ : Found size iterator k pre hole post) : hole ∈ pre ++ hole :: post :=
  List.mem_append_right _ List.mem_cons_self

theorem bounds (found : Found size iterator k pre hole post) :
    k.heap.startAddress ≤ hole.addr ∧ hole.addr + hole.size ≤ k.heap.endAddress ∧
      k.heap.endAddress < 4294967296 := by
  have inside := found.wf.layout.bounds found.member
  exact ⟨inside.1, inside.2, found.wf.small⟩

theorem total (found : Found size iterator k pre hole post) :
    headerSize k.mem (k.heap.index.slot k.mem iterator) = hole.size := by
  rw [found.here, found.wf.headerSize_entry found.member]

theorem few (found : Found size iterator k pre hole post) :
    k.heap.index.size < 4294967296 := by
  have few := found.wf.index_lt_noHole
  unfold noHole at few
  omega

theorem high_iff (found : Found size iterator k pre hole post) :
    k.heap.index.slot k.mem iterator &&& 0xFFFFF000 ≠ 0 ↔ 4096 ≤ hole.addr := by
  obtain ⟨lower, upper, small⟩ := found.bounds
  rw [found.here, Word32.and_page_mask (by omega)]
  omega

theorem splits (found : Found size iterator k pre hole post) (high : 4096 ≤ hole.addr) :
    ∃ pos rest m, splitFront hole.addr hole.size k.mem = (pos, rest, m) ∧
      pos + hole.addr % 4096 = hole.addr + 4084 ∧
      takeHole size (size + 20) 1 iterator k = placeBlock pos rest
        (blockLength hole.size (size + 20) - 20) (blockLength hole.size (size + 20))
        { k with mem := m } := by
  obtain ⟨lower, upper, small⟩ := found.bounds
  have fits := found.fits
  cases split : splitFront hole.addr hole.size k.mem with
  | mk pos restMem =>
    obtain ⟨rest, m⟩ := restMem
    have where_ := splitFront_pos k.mem hole.size high (by omega)
    rw [split] at where_
    have split' : splitFront (k.heap.index.slot k.mem iterator) hole.size k.mem =
        (pos, rest, m) := by rw [found.here, split]
    refine ⟨pos, rest, m, rfl, where_, ?_⟩
    rw [takeHole_split found.within (by decide) (found.high_iff.mpr high) found.total split',
      takenSize_eq (by omega) (by omega), takenPayload_eq (by omega) (by omega)]

/-! ## Holes that are split wrongly -/

theorem inner_tiles (found : Found size iterator k pre hole post)
    (serves : ServesAligned kmallocInt fuel size k pre hole post front block rest k') :
    Tiles Chunk.addr Chunk.size k.heap.startAddress pre hole.addr ∧
      Tiles Chunk.addr Chunk.size hole.addr (front ++ block :: rest) (hole.addr + hole.size) ∧
      Tiles Chunk.addr Chunk.size (hole.addr + hole.size) post k.heap.endAddress := by
  have new := serves.wf.layout.tiles
  rw [serves.bounds.1, serves.bounds.2] at new
  obtain ⟨before, -, after⟩ := tiles_middle.mp found.wf.layout.tiles
  obtain ⟨b, new, after'⟩ := tiles_append.mp new
  obtain ⟨a, before', inner⟩ := tiles_append.mp new
  obtain rfl := before'.end_unique before
  obtain rfl := after'.start_unique after
  exact ⟨before, inner, after⟩

theorem inside_hole (found : Found size iterator k pre hole post)
    (serves : ServesAligned kmallocInt fuel size k pre hole post front block rest k') {d : Chunk}
    (member : d ∈ pre ++ (front ++ block :: rest) ++ post) (_ : hole.addr ≤ d.addr)
    (upper : d.addr < hole.addr + hole.size) : d.addr + d.size ≤ hole.addr + hole.size := by
  obtain ⟨before, inner, after⟩ := found.inner_tiles serves
  cases List.mem_append.mp member with
  | inr later =>
    have := (after.bounds later).1
    omega
  | inl left =>
    cases List.mem_append.mp left with
    | inl earlier =>
      have := before.bounds earlier
      omega
    | inr here => exact (inner.bounds here).2.2

theorem front_cases (found : Found size iterator k pre hole post)
    (serves : ServesAligned kmallocInt fuel size k pre hole post front block rest k') :
    front = [] ∧ block.addr = hole.addr ∨ hole.addr + 20 ≤ block.addr := by
  obtain ⟨left, -⟩ := tiles_middle.mp (found.inner_tiles serves).2.1
  cases front with
  | nil => exact Or.inl ⟨rfl, left.symm⟩
  | cons c cs =>
    obtain ⟨start, -, later⟩ := left
    have room := c.room
    have := later.le
    omega

-- below the first page the hole is taken from its start on
theorem low_start (found : Found size iterator k pre hole post) (low : hole.addr < 4096)
    {p : Nat} (result : takeHole size (size + 20) 1 iterator k = .ok (p, k')) :
    p = hole.addr + 12 := by
  have plain : ¬ ((1 : Nat) ≠ 0 ∧ k.heap.index.slot k.mem iterator &&& 0xFFFFF000 ≠ 0) :=
    fun both => absurd (found.high_iff.mp both.2) (Nat.not_le_of_lt low)
  have ptr := takeHole_ptr found.within found.few plain result
  rw [found.here, sizeofHeader, Word32.add_of_lt (by omega)] at ptr
  exact ptr

-- what the search skips, when the hole does not begin in the first page
theorem skip_eq (found : Found size iterator k pre hole post) (high : 4096 ≤ hole.addr) :
    skipped hole.addr = 4096 - (hole.addr + 12) % 4096 := by
  obtain ⟨lower, upper, small⟩ := found.bounds
  have room := hole.room
  rw [skipped, if_neg (by omega)]

-- from the first page on the call returns where the cut is
theorem high_start (found : Found size iterator k pre hole post) (high : 4096 ≤ hole.addr)
    {p : Nat} (result : takeHole size (size + 20) 1 iterator k = .ok (p, k')) :
    p + hole.addr % 4096 = hole.addr + 4096 := by
  obtain ⟨lower, upper, small⟩ := found.bounds
  have fits := found.fits
  have skip := found.skip_eq high
  obtain ⟨pos, left, m, -, where_, placed⟩ := found.splits high
  rw [placed] at result
  have ptr := (placeBlock_cases result).1
  rw [sizeofHeader, Word32.add_of_lt (by omega)] at ptr
  omega

theorem none_fails (found : Found size iterator k pre hole post) (high : 4096 ≤ hole.addr)
    (offset : hole.addr % 4096 = 4084)
    (taken : takeHole size (size + 20) 1 iterator k = .ok (block.addr + 12, k')) :
    ¬ ServesAligned kmallocInt fuel size k pre hole post front block rest k' := by
  intro serves
  obtain ⟨lower, upper, small⟩ := found.bounds
  have fits := found.fits
  have skip := found.skip_eq high
  have start := found.high_start high taken
  obtain ⟨pos, left, m, split, where_, placed⟩ := found.splits high
  have whole : (splitFront hole.addr hole.size k.mem).2.1 = hole.size :=
    splitFront_none k.mem offset high (by omega) (by omega)
  rw [split] at whole
  change left = hole.size at whole
  have length : blockLength hole.size (size + 20) = size + 20 := by
    rw [blockLength, if_neg (by omega)]
  rw [placed, whole, length] at taken
  have counted := (placeBlock_listed taken (by
    rw [Word32.sub_of_le (by omega) (by omega)]
    omega)).1
  change k'.heap.index = { k.heap.index with size := k.heap.index.size + 1 } at counted
  have noFront : front = [] := by
    cases found.front_cases serves with
    | inl none => exact none.1
    | inr behind => omega
  have new := serves.wf.entries.length_eq
  have old := found.wf.entries.length_eq
  have few : (holeAddrs rest).length ≤ 1 := by
    rw [holeAddrs, List.length_map]
    exact (List.length_filter_le _ _).trans serves.restFew
  rw [OrderedArray.length_entries, counted, noFront, List.nil_append, holeAddrs_append,
    holeAddrs_append, holeAddrs_cons_block serves.used] at new
  rw [OrderedArray.length_entries, holeAddrs_append, holeAddrs_cons_hole found.free] at old
  simp only [List.length_append, List.length_cons] at new old
  omega

theorem rest_cases (found : Found size iterator k pre hole post) (high : 4096 ≤ hole.addr)
    (room : 20 ≤ frontLength hole.addr)
    (taken : takeHole size (size + 20) 1 iterator k = .ok (block.addr + 12, k'))
    (serves : ServesAligned kmallocInt fuel size k pre hole post front block rest k') :
    hole.size = frontLength hole.addr + (size + 20) ∨
      frontLength hole.addr + (size + 20) + 20 ≤ hole.size ∧
        k.heap.index.size < k.heap.index.maxSize := by
  obtain ⟨lower, upper, small⟩ := found.bounds
  have fits := found.fits
  have skip := found.skip_eq high
  have start := found.high_start high taken
  unfold frontLength at room ⊢
  let c : Chunk := { addr := hole.addr, size := 4084 - hole.addr % 4096, hole := true, room := room }
  obtain ⟨m, split, -⟩ := splitFront_correct k.mem c hole.size rfl
    (show 4084 - hole.addr % 4096 + hole.addr % 4096 = 4084 by omega)
    (show 4084 - hole.addr % 4096 ≤ hole.size by omega) high
    (show hole.addr + hole.size < 4294967296 by omega)
  change splitFront hole.addr hole.size k.mem =
    (hole.addr + (4084 - hole.addr % 4096), hole.size - (4084 - hole.addr % 4096), m) at split
  obtain ⟨pos, left, m', split', where_, placed⟩ := found.splits high
  rw [split] at split'
  cases split'
  have length : blockLength hole.size (size + 20) = size + 20 := by
    rw [blockLength, if_neg (by omega)]
  rw [placed, length] at taken
  by_cases exact_ : hole.size = 4084 - hole.addr % 4096 + (size + 20)
  · exact Or.inl exact_
  · refine Or.inr ?_
    obtain ⟨counted, listed⟩ := placeBlock_listed taken (by
      rw [Word32.sub_of_le (by omega) (by omega)]
      omega)
    have capacity := serves.wf.room
    rw [counted] at capacity
    change k.heap.index.size + 1 ≤ k.heap.index.maxSize at capacity
    have behind : restHeader (hole.addr + (4084 - hole.addr % 4096)) (size + 20 - 20) =
        hole.addr + (4084 - hole.addr % 4096) + (size + 20) := by
      simp only [restHeader, sizeofHeader, sizeofFooter, Word32.add]
      omega
    rw [behind] at listed
    -- the remainder is a chunk of the new heap, and it ends with the hole
    obtain ⟨d, member, -, at_⟩ := serves.wf.mem_entries.mp listed
    have dRoom := d.room
    have ends := found.inside_hole serves member (by omega) (by omega)
    exact ⟨by omega, capacity⟩

theorem splitsRight (found : Found size iterator k pre hole post)
    (taken : takeHole size (size + 20) 1 iterator k = .ok (block.addr + 12, k'))
    (serves : ServesAligned kmallocInt fuel size k pre hole post front block rest k') :
    SplitsRight size k hole := by
  have aligned := serves.aligned
  by_cases high : 4096 ≤ hole.addr
  · have start := found.high_start high taken
    have place := found.front_cases serves
    have offset : hole.addr % 4096 ≠ 4084 := fun same => found.none_fails high same taken serves
    have room : 20 ≤ frontLength hole.addr := by
      unfold frontLength
      omega
    exact Or.inr ⟨high, room, found.rest_cases high room taken serves⟩
  · have start := found.low_start (Nat.lt_of_not_le high) taken
    exact Or.inl (by omega)

/-! ## Holes that are split rightly -/

theorem serves_whole (found : Found size iterator k pre hole post) (first : hole.addr = 4084)
    (taken : alloc kmallocInt fuel size 1 k = takeHole size (size + 20) 1 iterator k) :
    ∃ front block rest k', ServesAligned kmallocInt fuel size k pre hole post front block rest
      k' := by
  have fits := found.fits
  have enough : size + 20 ≤ hole.size := by omega
  have plain : ¬ ((1 : Nat) ≠ 0 ∧ hole.addr &&& 0xFFFFF000 ≠ 0) := by
    rw [first]
    decide
  obtain ⟨block, rest, k', result, start, cut⟩ := takeHole_plain_cuts
    (found.wf.retag fun _ _ _ => trivial) found.free found.within found.here enough plain
  refine ⟨[], block, rest, k', cut.serves (taken.trans result) ?_⟩
  rw [start, first]

theorem serves_split (found : Found size iterator k pre hole post) (high : 4096 ≤ hole.addr)
    (room : 20 ≤ frontLength hole.addr)
    (left : hole.size = frontLength hole.addr + (size + 20) ∨
      frontLength hole.addr + (size + 20) + 20 ≤ hole.size ∧
        k.heap.index.size < k.heap.index.maxSize)
    (taken : alloc kmallocInt fuel size 1 k = takeHole size (size + 20) 1 iterator k) :
    ∃ front block rest k', ServesAligned kmallocInt fuel size k pre hole post front block rest
      k' := by
  obtain ⟨block, rest, k', result, start, -, cut⟩ := takeHole_split_cuts
    (found.wf.retag fun _ _ _ => trivial) found.free found.within found.here
    (show (1 : Nat) ≠ 0 by decide) high room left
  refine ⟨[frontOf hole room], block, rest, k', cut.serves (taken.trans result) ?_⟩
  unfold frontLength at room start
  omega

end Found

theorem found_of_search (wf : WellFormed Tagged k (pre ++ hole :: post)) (free : hole.hole = true)
    (small : size < 1073741824)
    (search : findSmallestHole (size + 20) 1 k.heap k.mem = .ok iterator)
    (listed : iterator ≠ noHole) (here : k.heap.index.slot k.mem iterator = hole.addr) :
    Found size iterator k pre hole post ∧
      alloc kmallocInt (fuel + 1) size 1 k = takeHole size (size + 20) 1 iterator k := by
  obtain ⟨n, first, result⟩ := findSmallestHole_isFirst (size + 20) 1 k.heap k.mem
  rw [search] at result
  have same := Except.ok.inj result
  by_cases last : n = k.heap.index.size
  · rw [if_pos last] at same
    exact absurd same listed
  · rw [if_neg last] at same
    subst same
    have member : hole ∈ pre ++ hole :: post := List.mem_append_right _ List.mem_cons_self
    have bounds := wf.layout.bounds member
    have upper := wf.small
    have within : iterator < k.heap.index.size := Nat.lt_of_le_of_ne first.1 last
    have fits : holeFits (size + 20) 1 k.mem (k.heap.index.slot k.mem iterator) = true :=
      first.2.2 within
    rw [here, holeFits_small (by decide) (by omega), wf.headerSize_entry member] at fits
    refine ⟨⟨wf, free, small, within, here, fits.1⟩, ?_⟩
    rw [alloc, allocSize_eq (by omega), search, ok_bind, if_neg listed]

/--
A page-aligned `alloc` that finds a hole serves the request if and only if that hole begins twelve
bytes before the first page boundary, or can be cut in front of the next one into whole chunks.
-/
theorem alloc_aligned_iff (kmallocInt : Kmalloc) (fuel size iterator : Nat) (k : Kernel)
    (pre : List Chunk) (hole : Chunk) (post : List Chunk)
    (wf : WellFormed Tagged k (pre ++ hole :: post)) (free : hole.hole = true)
    (small : size < 1073741824)
    (search : findSmallestHole (size + 20) 1 k.heap k.mem = .ok iterator)
    (listed : iterator ≠ noHole) (here : k.heap.index.slot k.mem iterator = hole.addr) :
    (∃ front block rest k', ServesAligned kmallocInt (fuel + 1) size k pre hole post front block
      rest k') ↔ SplitsRight size k hole := by
  obtain ⟨found, taken⟩ : Found size iterator k pre hole post ∧
      alloc kmallocInt (fuel + 1) size 1 k = takeHole size (size + 20) 1 iterator k :=
    found_of_search wf free small search listed here
  constructor
  · rintro ⟨front, block, rest, k', serves⟩
    exact found.splitsRight (taken ▸ serves.result) serves
  · rintro (first | ⟨high, room, left⟩)
    · exact found.serves_whole first taken
    · exact found.serves_split high room left taken

-- one hole of two pages from `start` on, with the index at 4096
def pagesHole (start : Nat) : Chunk :=
  { addr := start, size := 8192, hole := true, room := Nat.le_add_left 20 8172 }

def pagesKernel (start : Nat) : Kernel :=
  { Kernel.boot with
    mem := write32 (resizeHole start 8192 (setHeaderIsHole (setHeaderMagic Kernel.boot.mem start
      heapMagic) start 1)) 4096 start
    heap := { index := { array := 4096, size := 1, maxSize := 4, lessThan := some headerTLessThan },
              startAddress := start, endAddress := start + 8192, maxAddress := 0x20000,
              supervisor := 0, readonly := 0 } }

theorem pagesKernel_entries (start : Nat) (word : start < 4294967296) :
    (pagesKernel start).heap.index.entries (pagesKernel start).mem = [start] := by
  have slot : read32 (pagesKernel start).mem 4096 = start := by
    rw [pagesKernel, read32_write32, Nat.mod_eq_of_lt word]
  change [read32 (pagesKernel start).mem (4096 + 4 * 0)] = _
  rw [Nat.mul_zero, Nat.add_zero, slot]

theorem pagesKernel_wellFormed (start : Nat) (above : 4112 ≤ start) (below : start ≤ 0x1E000) :
    WellFormed Tagged (pagesKernel start) [pagesHole start] := by
  have flagged : headerMagic (setHeaderIsHole (setHeaderMagic Kernel.boot.mem start heapMagic)
      start 1) start = heapMagic ∧ headerIsHole (setHeaderIsHole (setHeaderMagic Kernel.boot.mem
        start heapMagic) start 1) start = 1 := by
    simp only [setHeaderMagic, setHeaderIsHole]
    refine ⟨?_, ?_⟩
    · rw [headerMagic, read32_write8_ne _ _ (by omega), read32_write32]
      rfl
    · rw [headerIsHole, read8_write8]
  have isHole : (pagesHole start).hole = true := rfl
  obtain ⟨header, footer⟩ := resizeHole_correct isHole flagged.1 flagged.2
    (show start + 8192 < 4294967296 by omega)
  have outside : Set.EqOn (pagesKernel start).mem _ (pagesHole start).bytes :=
    write32_eqOn _ _ _ (by
      intro x inside
      have lower : start ≤ x := inside.1
      omega)
  refine ⟨Layout.singleton rfl rfl (header.congr outside) fun _ => footer.congr outside, ?_, rfl,
    (by decide : 1 ≤ 4), (by decide : 0 < 4), ?_, show start + 8192 < 4294967296 by omega⟩
  · rw [pagesKernel_entries start (by omega)]
    exact List.Perm.refl _
  · rw [Set.disjoint_left]
    intro x inArray inHeap
    simp only [OrderedArray.region, pagesKernel, Set.mem_Ico] at inArray inHeap
    omega

theorem alloc_aligned_iff_page : ∃ front block rest k', ServesAligned (GekonOS.kmallocInt 0) 1 100
    (pagesKernel 0x10000) [] (pagesHole 0x10000) [] front block rest k' :=
  (alloc_aligned_iff (GekonOS.kmallocInt 0) 0 100 0 (pagesKernel 0x10000) [] (pagesHole 0x10000) []
    (pagesKernel_wellFormed 0x10000 (by decide) (by decide)) rfl (by decide)
    (by decide +kernel) (by decide) (by decide +kernel)).mpr (by decide)

/-- Only twelve bytes are left in front of the block, less than a header and a footer. -/
theorem alloc_aligned_short : ¬ ∃ front block rest k', ServesAligned (GekonOS.kmallocInt 0) 1 100
    (pagesKernel 0x10FE8) [] (pagesHole 0x10FE8) [] front block rest k' := by
  rintro ⟨front, block, rest, k', serves⟩
  obtain ⟨found, taken⟩ : Found 100 0 (pagesKernel 0x10FE8) [] (pagesHole 0x10FE8) [] ∧
      alloc (GekonOS.kmallocInt 0) (0 + 1) 100 1 (pagesKernel 0x10FE8) = takeHole 100 (100 + 20) 1 0 _ :=
    found_of_search (pagesKernel_wellFormed 0x10FE8 (by decide) (by decide)) rfl (by decide)
      (by decide +kernel) (by decide) (by decide +kernel)
  have result := serves.result
  rw [taken] at result
  exact absurd (found.splitsRight result serves) (by decide)

end GekonOS
