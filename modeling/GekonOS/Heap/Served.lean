import GekonOS.Heap.Sound

set_option autoImplicit false

namespace GekonOS

open ByteMemory Loop

variable {kmallocInt : Kmalloc} {k k' k1 : Kernel} {cs cs' pre post front rest : List Chunk}
  {hole block c : Chunk} {size pageAlign fuel p : Nat}

-- a front part and a remainder are whole chunks, and the index can list both
def SplitsAt (size h total : Nat) (spare : Prop) : Prop :=
  20 ≤ frontLength h ∧ (total = frontLength h + (size + 20) ∨
    frontLength h + (size + 20) + 20 ≤ total ∧ spare)

-- the length of the last hole once a page-aligned payload fits
def grownSize (size : Nat) (k : Kernel) (cs : List Chunk) : Nat :=
  if size + 20 + skipped (endAddr k cs) ≤ endSize cs + gain (size + 20) then
    endSize cs + gain (size + 20)
  else endSize cs + gain (size + 20) + gain (size + 20)

def NoneFits (size pageAlign : Nat) (k : Kernel) : Prop :=
  ∀ h ∈ k.heap.index.entries k.mem, holeFits (size + 20) pageAlign k.mem h = false

def FirstFits (size pageAlign : Nat) (k : Kernel) (h : Nat) : Prop :=
  (k.heap.index.entries k.mem).find? (holeFits (size + 20) pageAlign k.mem) = some h

/-- What a call of `alloc` must meet for it to leave whole chunks. -/
structure AllocCalm (size pageAlign : Nat) (k : Kernel) (cs : List Chunk) : Prop where
  small : size < 1073741824
  right : NoneFits size pageAlign k → GrowsRight cs
  found : pageAlign ≠ 0 → ∀ h, FirstFits size pageAlign k h →
    SplitsAt size h (headerSize k.mem h) (k.heap.index.size < k.heap.index.maxSize)
  grown : pageAlign ≠ 0 → NoneFits size pageAlign k →
    SplitsAt size (endAddr k cs) (grownSize size k cs) (k.heap.index.size < k.heap.index.maxSize)

/-- The block is cut out of the first hole that fits, if need be of one that the heap gains. -/
inductive Allocates (size pageAlign : Nat) :
    Kernel → List Chunk → Chunk → Kernel → List Chunk → Prop
  | cut {k k' : Kernel} {pre post front rest : List Chunk} {hole block : Chunk}
      (free : hole.hole = true) (fits : FirstFits size pageAlign k hole.addr)
      (whole : pageAlign = 0 → front = [])
      (shorter : front ≠ [] → ∃ room, front = [frontOf hole room])
      (cut : Cut size k pre hole post front block rest k') :
      Allocates size pageAlign k (pre ++ hole :: post) block k'
        (pre ++ (front ++ block :: rest) ++ post)
  | grow {k k1 k' : Kernel} {cs cs' pre : List Chunk} {hole block : Chunk}
      (none : NoneFits size pageAlign k) (longer : Lengthens (size + 20) k cs k1 pre hole)
      (later : Allocates size pageAlign k1 (pre ++ [hole]) block k' cs') :
      Allocates size pageAlign k cs block k' cs'

theorem noneFits_or (size pageAlign : Nat) (k : Kernel) :
    NoneFits size pageAlign k ∨ ∃ h, FirstFits size pageAlign k h := by
  unfold NoneFits FirstFits
  cases found : (k.heap.index.entries k.mem).find? (holeFits (size + 20) pageAlign k.mem) with
  | none => exact Or.inl (by simpa using found)
  | some h => exact Or.inr ⟨h, rfl⟩

theorem holeFits_congr {m m' : Mem} {h : Nat} (same : headerSize m' h = headerSize m h) :
    holeFits size pageAlign m' h = holeFits size pageAlign m h := by
  unfold holeFits
  rw [same]

-- the position at which the search stops
theorem FirstFits.slot_eq {h iterator : Nat} (fits : FirstFits size pageAlign k h)
    (within : iterator < k.heap.index.size) (first : iterator =
      (k.heap.index.entries k.mem).findIdx (holeFits (size + 20) pageAlign k.mem)) :
    k.heap.index.slot k.mem iterator = h := by
  rw [FirstFits, List.find?_eq_getElem?_findIdx, ← first,
    List.getElem?_eq_getElem (by simpa using within)] at fits
  simpa using fits

theorem Sound.serves (sound : Sound k cs) (calm : AllocCalm size pageAlign k cs)
    (kmallocInt : Kmalloc) (fuel : Nat) {h : Nat} (fits : FirstFits size pageAlign k h) :
    ∃ block k' cs', alloc kmallocInt (fuel + 1) size pageAlign k = .ok (block.addr + 12, k') ∧
      Allocates size pageAlign k cs block k' cs' ∧ Sound k' cs' := by
  have small := calm.small
  have enough := List.find?_some fits
  have listed := List.mem_of_find?_eq_some fits
  obtain ⟨iterator, within, first, -, taken⟩ := alloc_takes kmallocInt fuel
    sound.wf.index_lt_noHole (show size + 20 < 4294967296 by omega) ⟨h, listed, enough⟩
  have here := fits.slot_eq within first
  obtain ⟨hole, member, free, rfl⟩ := sound.wf.mem_entries.mp listed
  have total := sound.wf.headerSize_entry member
  obtain ⟨pre, post, rfl⟩ := List.append_of_mem member
  by_cases plain : pageAlign = 0
  · simp only [holeFits, plain, total, gt_iff_lt, Nat.lt_irrefl, if_false, decide_eq_true_eq]
      at enough
    obtain ⟨block, rest, k', result, -, cut⟩ :=
      takeHole_plain_cuts sound.others free within here enough (fun both => both.1 plain)
    exact ⟨block, k', _, taken.trans result,
      Allocates.cut free fits (fun _ => rfl) (fun none => absurd rfl none) cut, sound.cut cut⟩
  · have lower := (sound.wf.layout.bounds member).1
    have low := sound.low
    obtain ⟨room, left⟩ := calm.found plain _ fits
    rw [total] at left
    obtain ⟨block, rest, k', result, -, -, cut⟩ :=
      takeHole_split_cuts sound.others free within here plain (by omega) room left
    exact ⟨block, k', _, taken.trans result,
      Allocates.cut free fits (fun zero => absurd zero plain) (fun _ => ⟨room, rfl⟩) cut,
      sound.cut cut⟩

namespace Lengthens

-- no entry but the one of the last hole has changed
theorem other {tagged : Chunk → Prop} (longer : Lengthens (size + 20) k cs k1 pre hole)
    (wf : WellFormed tagged k cs) {h : Nat} (listed : h ∈ k1.heap.index.entries k1.mem) (apart : h ≠ hole.addr) :
    h ∈ k.heap.index.entries k.mem ∧ headerSize k1.mem h = headerSize k.mem h := by
  obtain ⟨d, member, free, rfl⟩ := longer.wf.mem_entries.mp listed
  have earlier : d ∈ pre := by
    cases List.mem_append.mp member with
    | inl inPre => exact inPre
    | inr last => exact absurd (congrArg Chunk.addr (List.mem_singleton.mp last)) apart
  have before : d ∈ cs := by
    rcases longer.source with ⟨rfl, -⟩ | ⟨last, rfl, -⟩
    · exact earlier
    · exact List.mem_append_left _ earlier
  exact ⟨wf.mem_entries.mpr ⟨d, before, free, rfl⟩,
    (longer.wf.headerSize_entry member).trans (wf.headerSize_entry before).symm⟩

theorem spare (longer : Lengthens (size + 20) k cs k1 pre hole) (sound : Sound k cs)
    (room : k.heap.index.size < k.heap.index.maxSize) :
    k1.heap.index.size < k1.heap.index.maxSize := by
  have capacity := sound.capacity
  have full : k1.heap.index.maxSize = k.heap.index.maxSize := by
    rw [longer.stretched.heap]
  rcases longer.source with ⟨-, -, -, listed⟩ | ⟨-, -, -, -, same, -⟩
  · have one := congrArg List.length listed
    rw [OrderedArray.length_entries, List.length_singleton] at one
    omega
  · omega

theorem calm (longer : Lengthens (size + 20) k cs k1 pre hole) (sound : Sound k cs)
    (next : Sound k1 (pre ++ [hole])) (none : NoneFits size pageAlign k)
    (calm : AllocCalm size pageAlign k cs) : AllocCalm size pageAlign k1 (pre ++ [hole]) := by
  have small := calm.small
  have free := longer.stretched.free
  have member : hole ∈ pre ++ [hole] := List.mem_append_right _ (List.mem_singleton_self hole)
  have total := longer.wf.headerSize_entry member
  have bounds := longer.wf.layout.bounds member
  have bound := next.bound
  have limit := next.limit
  obtain ⟨start, length⟩ := longer.hole_eq sound
  obtain ⟨start', length'⟩ : endAddr k1 (pre ++ [hole]) = hole.addr ∧ _ := endAddr_snoc k1 free
  have gained : size + 20 < gain (size + 20) ∧ 4096 ≤ gain (size + 20) := by
    unfold gain
    omega
  have skip := skipped_le hole.addr
  have fits_iff (aligned : pageAlign ≠ 0) :
      holeFits (size + 20) pageAlign k1.mem hole.addr = true ↔
        size + 20 + skipped hole.addr ≤ hole.size := by
    rw [holeFits_small aligned (by omega), total]
    omega
  have room : SplitsAt size (endAddr k cs) (grownSize size k cs)
      (k.heap.index.size < k.heap.index.maxSize) →
      SplitsAt size hole.addr (grownSize size k cs)
        (k1.heap.index.size < k1.heap.index.maxSize) := by
    rintro ⟨enough, whole | ⟨rest, spare⟩⟩
    · exact ⟨start ▸ enough, Or.inl (start ▸ whole)⟩
    · exact ⟨start ▸ enough, Or.inr ⟨start ▸ rest, longer.spare sound spare⟩⟩
  constructor
  case small => exact small
  case right => exact fun _ => Or.inr ⟨pre, hole, rfl, free⟩
  case found =>
    intro aligned h fits
    have here : h = hole.addr := by
      by_contra apart
      obtain ⟨before, same⟩ := longer.other sound.wf (List.mem_of_find?_eq_some fits) apart
      have found := List.find?_some fits
      rw [holeFits_congr same, none h before] at found
      cases found
    subst here
    have enough := (fits_iff aligned).mp (List.find?_some fits)
    have once : grownSize size k cs = hole.size := by
      rw [grownSize, ← start, if_pos (by omega), length]
    rw [total, ← once]
    exact room (calm.grown aligned none)
  case grown =>
    intro aligned again
    have short : ¬ size + 20 + skipped hole.addr ≤ hole.size := by
      rw [← fits_iff aligned, again _ (longer.wf.mem_entries.mpr ⟨hole, member, free, rfl⟩)]
      decide
    have twice : grownSize size k1 (pre ++ [hole]) = grownSize size k cs := by
      rw [grownSize, grownSize, start', length', ← start, if_pos (by omega), if_neg (by omega),
        length]
    rw [twice, start']
    exact room (calm.grown aligned none)

end Lengthens

theorem alloc_allocates (sound : Sound k cs) (calm : AllocCalm size pageAlign k cs)
    (result : alloc kmallocInt fuel size pageAlign k = .ok (p, k')) :
    ∃ block cs', p = block.addr + 12 ∧ Allocates size pageAlign k cs block k' cs' ∧
      Sound k' cs' := by
  induction fuel generalizing k cs with
  | zero => cases result
  | succ fuel ih =>
    have small := calm.small
    rcases noneFits_or size pageAlign k with none | ⟨h, fits⟩
    · rw [alloc_grows kmallocInt fuel (by omega) none] at result
      cases grown : growHeap kmallocInt (size + 20) k with
      | error halt =>
        rw [grown] at result
        cases result
      | ok k1 =>
        rw [grown, ok_bind] at result
        have header := Nat.le_add_left 20 size
        obtain ⟨pre, hole, longer⟩ :=
          sound.lengthens (calm.right none) header (by omega) grown
        have next := sound.grow (sound.growing header (by omega) grown) longer
        obtain ⟨block, cs', ptr, allocates, after⟩ :=
          ih next (longer.calm sound next none calm) result
        exact ⟨block, cs', ptr, Allocates.grow none longer allocates, after⟩
    · obtain ⟨block, k2, cs', served, allocates, after⟩ :=
        sound.serves calm kmallocInt fuel fits
      rw [served] at result
      cases result
      exact ⟨block, cs', rfl, allocates, after⟩

theorem blockPtrs_holes (holes : ∀ c ∈ cs, c.hole = true) : blockPtrs cs = [] := by
  rw [List.eq_nil_iff_forall_not_mem]
  intro q member
  obtain ⟨c, inList, used, -⟩ := mem_blockPtrs.mp member
  rw [holes c inList] at used
  cases used

theorem WellFormed.off_hole {tagged : Chunk → Prop} (wf : WellFormed tagged k (pre ++ hole :: post))
    (member : c ∈ pre ++ post) :
    c.bytes ⊆ (hole.bytes ∪ k.heap.index.region k.heap.index.maxSize)ᶜ := by
  have inList : c ∈ pre ++ hole :: post := by
    simp only [List.mem_append, List.mem_cons] at member ⊢
    tauto
  have bounds := wf.layout.bounds inList
  have apart := wf.layout.tiles.apart inList (List.mem_append_right _ List.mem_cons_self)
    (wf.layout.ne_middle member)
  intro x inside changed
  simp only [Chunk.bytes, Set.mem_Ico] at inside
  cases changed with
  | inl inHole =>
    simp only [Chunk.bytes, Set.mem_Ico] at inHole
    omega
  | inr inArray => exact Set.disjoint_left.mp wf.apart inArray ⟨by omega, by omega⟩

namespace Allocates

variable {tagged : Chunk → Prop}

theorem used (allocates : Allocates size pageAlign k cs block k' cs') : block.hole = false := by
  induction allocates with
  | cut _ _ _ _ cut => exact cut.used
  | grow _ _ _ ih => exact ih

theorem block_mem (allocates : Allocates size pageAlign k cs block k' cs') :
    block ∈ cs' ∧ size + 20 ≤ block.size := by
  induction allocates with
  | cut _ _ _ _ cut => exact ⟨by simp, cut.enough⟩
  | grow _ _ _ ih => exact ih

theorem ptrs (allocates : Allocates size pageAlign k cs block k' cs') :
    (blockPtrs cs').Perm ((block.addr + sizeofHeader) :: blockPtrs cs) := by
  induction allocates with
  | cut free _ _ _ cut =>
    simp only [blockPtrs_append, blockPtrs_cons_hole free, blockPtrs_cons_block cut.used,
      blockPtrs_holes cut.frontHoles, blockPtrs_holes cut.restHoles, List.nil_append,
      List.append_assoc, List.cons_append]
    exact List.perm_middle
  | grow _ longer _ ih =>
    refine ih.trans (List.Perm.cons _ (List.Perm.of_eq ?_))
    rw [blockPtrs_append, blockPtrs_cons_hole longer.stretched.free, blockPtrs_nil,
      List.append_nil]
    rcases longer.source with ⟨rfl, -⟩ | ⟨last, rfl, free, -⟩
    · rfl
    · rw [blockPtrs_append, blockPtrs_cons_hole free, blockPtrs_nil, List.append_nil]

/-- The chunks in use stay where they are, and nothing is written to them. -/
theorem keeps (allocates : Allocates size pageAlign k cs block k' cs')
    (wf : WellFormed tagged k cs) (member : c ∈ cs) (inUse : c.hole = false) :
    c ∈ cs' ∧ Set.EqOn k'.mem k.mem c.bytes := by
  induction allocates generalizing tagged with
  | @cut k k' pre post front rest hole block free _ _ _ cut =>
    have apart : c ≠ hole := by
      rintro rfl
      rw [free] at inUse
      cases inUse
    have others : c ∈ pre ++ post := by
      simp only [List.mem_append, List.mem_cons] at member ⊢
      tauto
    refine ⟨?_, cut.frame.mono (wf.off_hole others)⟩
    simp only [List.mem_append] at others ⊢
    tauto
  | @grow k k1 k' cs cs' pre hole block _ longer _ ih =>
    have earlier : c ∈ pre := by
      rcases longer.source with ⟨rfl, -⟩ | ⟨last, rfl, free, -⟩
      · exact member
      · cases List.mem_append.mp member with
        | inl inPre => exact inPre
        | inr here =>
          rw [List.mem_singleton.mp here, free] at inUse
          cases inUse
    have region : k1.heap.index.region k1.heap.index.maxSize =
        k.heap.index.region k.heap.index.maxSize := by
      rw [longer.stretched.heap]
      rfl
    have off := longer.wf.off_hole (List.mem_append_left [] earlier)
    rw [region] at off
    obtain ⟨still, same⟩ := ih longer.wf (List.mem_append_left _ earlier)
    exact ⟨still, same.trans (longer.stretched.frame.mono off)⟩

end Allocates

end GekonOS
