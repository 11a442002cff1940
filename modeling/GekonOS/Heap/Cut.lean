import GekonOS.Heap.Contract
import GekonOS.Heap.FirstFit

set_option autoImplicit false

namespace GekonOS

open ByteMemory Loop Tiling

variable {tagged tagged' : Chunk → Prop} {m : Mem} {lo hi size iterator pageAlign : Nat} {k k' : Kernel}
  {cs pre post front rest : List Chunk} {c hole block : Chunk}

theorem WellFormed.retag (wf : WellFormed tagged k cs) (tags : ∀ c ∈ cs, tagged' c → tagged c) :
    WellFormed tagged' k cs :=
  { wf with layout := ⟨wf.layout.tiles, wf.layout.headers,
      fun c member tag => wf.layout.footers c member (tags c member tag)⟩ }

theorem Layout.ne_middle (layout : Layout tagged m lo hi (pre ++ hole :: post))
    (member : c ∈ pre ++ post) : c ≠ hole := by
  obtain ⟨before, -, -, after⟩ := Layout.middle.mp layout
  have room := c.room
  have holeRoom := hole.room
  rintro rfl
  cases List.mem_append.mp member with
  | inl earlier =>
    have := (before.bounds earlier).2
    omega
  | inr later =>
    have := (after.bounds later).1
    omega

-- from the header of a hole to where the block goes, up to a page without its last twelve bytes
def frontLength (h : Nat) : Nat := 4084 - h % 4096

/-- `block` has been cut out of `hole`, and `front` and `rest` are left of it. -/
structure Cut (size : Nat) (k : Kernel) (pre : List Chunk) (hole : Chunk)
    (post front : List Chunk) (block : Chunk) (rest : List Chunk) (k' : Kernel) : Prop where
  used : block.hole = false
  enough : size + 20 ≤ block.size
  frontHoles : ∀ c ∈ front, c.hole = true
  restHoles : ∀ c ∈ rest, c.hole = true
  few : front.length ≤ 1 ∧ rest.length ≤ 1
  wf : WellFormed Tagged k' (pre ++ (front ++ block :: rest) ++ post)
  same : k' = k.withIndex { k.heap.index with size := k'.heap.index.size } k'.mem
  entries : k'.heap.index.entries k'.mem = (holeAddrs rest).foldr
    (fun a => List.orderedInsert (sizeLe k'.mem) a)
    (if front = [] then (k.heap.index.entries k.mem).erase hole.addr
      else k.heap.index.entries k.mem)
  frame : Set.EqOn k'.mem k.mem (hole.bytes ∪ k.heap.index.region k.heap.index.maxSize)ᶜ

-- the hole itself may lack its footer
theorem takeHole_plain_cuts (wf : WellFormed (· ≠ hole) k (pre ++ hole :: post))
    (free : hole.hole = true) (within : iterator < k.heap.index.size)
    (here : k.heap.index.slot k.mem iterator = hole.addr) (fits : size + 20 ≤ hole.size)
    (plain : ¬ (pageAlign ≠ 0 ∧ hole.addr &&& 0xFFFFF000 ≠ 0)) :
    ∃ block rest k', takeHole size (size + 20) pageAlign iterator k =
        .ok (block.addr + 12, k') ∧ block.addr = hole.addr ∧
      Cut size k pre hole post [] block rest k' := by
  obtain ⟨index, m, result, array, entries, wf', frame⟩ :=
    takeHole_correct wf free within here fits plain
  have longer := (blockLength_le fits).1
  refine ⟨blockOf hole.addr (blockLength hole.size (size + 20))
      ((Nat.le_add_left 20 size).trans longer),
    remainderOf hole.addr hole.size (blockLength hole.size (size + 20)), k.withIndex index m,
    result, rfl, ?_⟩
  constructor
  case used => rfl
  case enough => exact longer
  case frontHoles => exact fun c member => absurd member List.not_mem_nil
  case restHoles => exact remainderOf_holes _ _ _
  case few => exact ⟨Nat.zero_le 1, remainderOf_length _ _ _⟩
  case wf =>
    refine wf'.retag ?_
    intro c member _
    simp only [List.mem_append] at member
    rcases member with (earlier | inner) | later
    · exact wf.layout.ne_middle (List.mem_append_left _ earlier)
    · rintro rfl
      cases List.mem_cons.mp inner with
      | inl isBlock =>
        rw [isBlock] at free
        exact absurd (show false = true from free) Bool.false_ne_true
      | inr isRest =>
        unfold remainderOf at isRest
        split at isRest
        next =>
          have start := congrArg Chunk.addr (List.mem_singleton.mp isRest)
          change c.addr = c.addr + blockLength c.size (size + 20) at start
          omega
        next => cases isRest
    · exact wf.layout.ne_middle (List.mem_append_right _ later)
  case same =>
    rw [array]
    rfl
  case entries => exact entries
  case frame => exact frame

-- the front part keeps the entry of the hole, and the remainder has one of its own
theorem WellFormed.split_perm (wf : WellFormed tagged k (pre ++ hole :: post))
    (free : hole.hole = true) {front : Chunk} (frontFree : front.hole = true)
    (start : front.addr = hole.addr) (used : block.hole = false) :
    (holeAddrs rest ++ k.heap.index.entries k.mem).Perm
      (holeAddrs (pre ++ ([front] ++ block :: rest) ++ post)) := by
  refine (wf.entries.append_left _).trans ?_
  rw [holeAddrs_append, holeAddrs_cons_hole free, holeAddrs_append, holeAddrs_append,
    holeAddrs_append, holeAddrs_cons_block used, holeAddrs_cons_hole frontFree, start]
  rw [List.perm_iff_count]
  intro a
  simp only [List.count_append, List.count_cons, holeAddrs_nil, List.count_nil]
  omega

/-- The front part of `hole` up to the next page. -/
def frontOf (hole : Chunk) (room : 20 ≤ frontLength hole.addr) : Chunk :=
  { addr := hole.addr, size := frontLength hole.addr, hole := true, room := room }

-- what the call writes, all of it in the hole and in the array
theorem takeHole_split_writes (wf : WellFormed (· ≠ hole) k (pre ++ hole :: post))
    (here : k.heap.index.slot k.mem iterator = hole.addr)
    (within : iterator < k.heap.index.size) (aligned : pageAlign ≠ 0)
    (high : 4096 ≤ hole.addr) (room : 20 ≤ frontLength hole.addr)
    (left : hole.size = frontLength hole.addr + (size + 20) ∨
      frontLength hole.addr + (size + 20) + 20 ≤ hole.size ∧
        k.heap.index.size < k.heap.index.maxSize) :
    ∃ block rest index m, takeHole size (size + 20) pageAlign iterator k =
        .ok (block.addr + 12, k.withIndex index m) ∧
      (block.hole = false ∧ block.addr = hole.addr + frontLength hole.addr ∧
        block.size = size + 20) ∧
      ((∀ c ∈ rest, c.hole = true) ∧ rest.length ≤ 1) ∧
      index = { k.heap.index with size := index.size } ∧
      index.entries m = (holeAddrs rest).foldr (fun a => List.orderedInsert (sizeLe m) a)
        (k.heap.index.entries k.mem) ∧
      Layout Tagged m hole.addr (hole.addr + hole.size) (frontOf hole room :: block :: rest) ∧
      Set.EqOn m k.mem (hole.bytes ∪ k.heap.index.region k.heap.index.maxSize)ᶜ ∧
      IndexIn index m k.heap.startAddress k.heap.endAddress := by
  have member : hole ∈ pre ++ hole :: post := List.mem_append_right _ List.mem_cons_self
  obtain ⟨lower, upper⟩ := wf.layout.bounds member
  have small := wf.small
  have sound := wf.indexIn
  obtain ⟨total, total_eq⟩ : ∃ total, hole.size - frontLength hole.addr = total := ⟨_, rfl⟩
  have offset : frontLength hole.addr + hole.addr % 4096 = 4084 := by
    unfold frontLength at room ⊢
    omega
  obtain ⟨m1, split, header, footer, frame⟩ := splitFront_correct k.mem (frontOf hole room)
    hole.size rfl offset (show frontLength hole.addr ≤ hole.size by omega) high
    (show hole.addr + hole.size < 4294967296 by omega)
  change splitFront hole.addr hole.size k.mem =
    (hole.addr + frontLength hole.addr, hole.size - frontLength hole.addr, m1) at split
  rw [total_eq, ← here] at split
  have masked : k.heap.index.slot k.mem iterator &&& 0xFFFFF000 ≠ 0 := by
    rw [here, Word32.and_page_mask (by omega)]
    omega
  have length : blockLength hole.size (size + 20) = size + 20 := by
    rw [blockLength, if_neg (by omega)]
  have total' : headerSize k.mem (k.heap.index.slot k.mem iterator) = hole.size := by
    rw [here, wf.headerSize_entry member]
  have placed : takeHole size (size + 20) pageAlign iterator k = _ :=
    takeHole_split within aligned masked total' split
  rw [here, takenSize_eq (by omega) (by omega), takenPayload_eq (by omega) (by omega), length]
    at placed
  have arraySame : Set.EqOn m1 k.mem (k.heap.index.region k.heap.index.maxSize) :=
    sound.array_same (frame.mono (Set.compl_subset_compl.mpr
      (Set.Ico_subset_Ico lower (show hole.addr + frontLength hole.addr ≤ _ by omega))))
  obtain ⟨index, m, result, sized, entries, inner, frame', sound'⟩ := placeBlock_correct
    (k := { k with mem := m1 }) Tagged (Nat.le_add_left 20 size)
    (show size + 20 ≤ total by omega) (by omega) (sound.congr arraySame)
    (fun more => by
      cases left with
      | inl all => omega
      | inr spare => exact spare.2)
    (show k.heap.startAddress ≤ hole.addr + frontLength hole.addr by omega)
    (show hole.addr + frontLength hole.addr + total ≤ k.heap.endAddress by omega)
  change Set.EqOn m m1 (Set.Ico (hole.addr + frontLength hole.addr) _ ∪
    k.heap.index.region k.heap.index.maxSize)ᶜ at frame'
  change index.entries m = List.foldr _ (k.heap.index.entries m1) _ at entries
  have stop : hole.addr + frontLength hole.addr + total = hole.addr + hole.size := by omega
  rw [stop] at inner frame'
  have frontSame : Set.EqOn m m1 (frontOf hole room).bytes := by
    refine frame'.mono ?_
    intro x inside changed
    have below : x < hole.addr + frontLength hole.addr := inside.2
    cases changed with
    | inl behind => exact absurd behind.1 (Nat.not_le_of_lt below)
    | inr inArray =>
      exact Set.disjoint_left.mp wf.apart inArray
        ⟨lower.trans inside.1, (show x < k.heap.endAddress by omega)⟩
  refine ⟨blockOf (hole.addr + frontLength hole.addr) (size + 20) (Nat.le_add_left 20 size),
    remainderOf (hole.addr + frontLength hole.addr) total (size + 20), index, m,
    placed.trans result, ⟨rfl, rfl, rfl⟩, ⟨remainderOf_holes _ _ _, remainderOf_length _ _ _⟩,
    by rw [sized], ?_, Layout.cons.mpr ⟨rfl, header.congr frontSame,
      fun _ => footer.congr frontSame, inner⟩, ?_, sound'⟩
  · rw [entries, sound.entries_same arraySame]
  · intro x away
    simp only [Chunk.bytes, Set.mem_compl_iff, Set.mem_union, Set.mem_Ico, not_or] at away
    rw [frame' _, frame _]
    · simp only [Chunk.bytes, frontOf, Set.mem_compl_iff, Set.mem_Ico]
      omega
    · simp only [Set.mem_compl_iff, Set.mem_union, Set.mem_Ico, not_or]
      exact ⟨by omega, away.2⟩

theorem takeHole_split_cuts (wf : WellFormed (· ≠ hole) k (pre ++ hole :: post))
    (free : hole.hole = true) (within : iterator < k.heap.index.size)
    (here : k.heap.index.slot k.mem iterator = hole.addr) (aligned : pageAlign ≠ 0)
    (high : 4096 ≤ hole.addr) (room : 20 ≤ frontLength hole.addr)
    (left : hole.size = frontLength hole.addr + (size + 20) ∨
      frontLength hole.addr + (size + 20) + 20 ≤ hole.size ∧
        k.heap.index.size < k.heap.index.maxSize) :
    ∃ block rest k', takeHole size (size + 20) pageAlign iterator k =
        .ok (block.addr + 12, k') ∧ block.addr = hole.addr + frontLength hole.addr ∧
      block.size = size + 20 ∧
      Cut size k pre hole post [frontOf hole room] block rest k' := by
  obtain ⟨block, rest, index, m, result, ⟨used, start, length⟩, ⟨restHoles, few⟩, sized, listed,
    inner, changed, sound⟩ := takeHole_split_writes wf here within aligned high room left
  have layout := wf.recut (fun _ member _ => wf.layout.ne_middle member) inner changed
  have perm : (index.entries m).Perm
      (holeAddrs (pre ++ ([frontOf hole room] ++ block :: rest) ++ post)) := by
    rw [listed]
    exact (perm_foldr_orderedInsert m _ _).trans (wf.split_perm free rfl rfl used)
  refine ⟨block, rest, k.withIndex index m, result, start, length, ?_⟩
  constructor
  case used => exact used
  case enough => exact Nat.le_of_eq length.symm
  case frontHoles =>
    intro c member
    rw [List.mem_singleton.mp member]
    rfl
  case restHoles => exact restHoles
  case few => exact ⟨Nat.le_refl 1, few⟩
  case wf =>
    have sizes : index.maxSize = k.heap.index.maxSize := by rw [sized]
    exact ⟨layout, perm, sound.lessThan, sound.room, sizes ▸ wf.positive, sound.apart, wf.small⟩
  case same =>
    rw [sized]
    rfl
  case entries => exact listed
  case frame => exact changed

end GekonOS
