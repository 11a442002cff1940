import GekonOS.Heap.Sound

set_option autoImplicit false

namespace GekonOS

open ByteMemory Loop

variable {kmallocInt : Kmalloc} {k k' : Kernel} {cs pre post : List Chunk}
  {left right : Option Chunk} {b hole : Chunk}

-- a list of chunks as `free` sees it from one of them
theorem exists_around (xs : List Chunk) (b : Chunk) (ys : List Chunk) :
    ∃ pre left right post, xs ++ b :: ys = around pre left b right post ∧
      Beside pre left right post := by
  obtain ⟨pre, left, rfl, leftHole, noLeft⟩ : ∃ pre left, xs = pre ++ Option.toList left ∧
      (∀ l ∈ left, l.hole = true) ∧ (left = none → ∀ c ∈ pre.getLast?, c.hole = false) := by
    cases xs using List.reverseRecOn with
    | nil => exact ⟨[], none, rfl, by simp, by simp⟩
    | append_singleton pre l =>
      cases free : l.hole with
      | true => exact ⟨pre, some l, rfl, by simpa using free, by simp⟩
      | false => exact ⟨pre ++ [l], none, by simp, by simp, by simpa using free⟩
  obtain ⟨right, post, rfl, rightHole, noRight⟩ : ∃ right post, ys = Option.toList right ++ post ∧
      (∀ r ∈ right, r.hole = true) ∧ (right = none → ∀ c ∈ post.head?, c.hole = false) := by
    cases ys with
    | nil => exact ⟨none, [], rfl, by simp, by simp⟩
    | cons r post =>
      cases free : r.hole with
      | true => exact ⟨some r, post, rfl, by simpa using free, by simp⟩
      | false => exact ⟨none, r :: post, rfl, by simp, by simpa using free⟩
  exact ⟨pre, left, right, post, rfl, leftHole, noLeft, rightHole, noRight⟩

/-- What a call of `free` must meet for it to leave whole chunks. -/
structure FreeCalm (k : Kernel) (pre : List Chunk) (left : Option Chunk) (b : Chunk)
    (right : Option Chunk) (post : List Chunk) : Prop where
  noFooter : pre = [] → left = none →
    ¬ UnifiesLeft b.addr (setHeaderIsHole k.mem b.addr 1)
  room : left = none → right = none → k.heap.index.size < k.heap.index.maxSize
  inner : post ≠ [] → right = none
  low : post = [] → (leftmost left b).addr - k.heap.startAddress + 20 ≤ heapMinSize
  noHeader : post = [] → right = none → ¬ UnifiesRight k.heap.endAddress k.mem

-- how much of the merged hole is left
def freedSize (k : Kernel) (left : Option Chunk) (b : Chunk) (right : Option Chunk) :
    List Chunk → Nat
  | [] => k.heap.startAddress + heapMinSize - (leftmost left b).addr
  | _ :: _ => (mergedHole left b right).size

/-- The block and the holes beside it have become `hole`, up to the end of the heap. -/
structure Frees (k : Kernel) (pre : List Chunk) (left : Option Chunk) (b : Chunk)
    (right : Option Chunk) (post : List Chunk) (k' : Kernel) (hole : Chunk) : Prop where
  free : hole.hole = true
  start : hole.addr = (mergedHole left b right).addr
  size : hole.size = freedSize k left b right post
  entries : k'.heap.index.entries k'.mem = relisted left hole.addr k'.mem
    ((k.heap.index.entries k.mem).diff (right.toList.map Chunk.addr))
  frame : Set.EqOn k'.mem k.mem ((mergedHole left b right).bytes ∪
    k.heap.index.region k.heap.index.maxSize)ᶜ

namespace FreeCalm

theorem frees_inner (calm : FreeCalm k pre left b right post)
    (sound : Sound k (around pre left b right post)) (used : b.hole = false)
    (beside : Beside pre left right post) (inner : post ≠ []) (kmallocInt : Kmalloc) :
    ∃ k' hole, free kmallocInt (b.addr + 12) k = .ok k' ∧
      Frees k pre left b right post k' hole ∧ Sound k' (pre ++ [hole] ++ post) := by
  obtain rfl := calm.inner inner
  have wf : WellFormed Tagged k (around pre left b none post) :=
    sound.tagged (show b ∈ pre ++ left.toList ++ b :: ([] ++ post) by simp) used
  have at_ := wf.around
  obtain ⟨lower, leftOf, rightOf, upper⟩ := at_.bounds
  have leftSees : SeesLeft k.mem b left :=
    at_.seesLeft beside (fun _ _ => trivial) (by omega) wf.small calm.noFooter
  have rightSees : SeesRight k.mem b none :=
    at_.seesRight beside fun _ none => absurd none inner
  have farther : HasNext k (mergedHole left b none) := by
    unfold HasNext
    rw [at_.merged_end]
    intro last
    have none := at_.after
    rw [last] at none
    exact inner none.eq_nil
  obtain ⟨index, m, result, sized, entries, wf', frame⟩ := free_coalesced kmallocInt wf used beside
    (at_.footer trivial) leftSees rightSees farther fun noLeft => calm.room noLeft rfl
  have size : (mergedHole left b none).size = freedSize k left b none post := by
    cases post with
    | nil => exact absurd rfl inner
    | cons c post => rfl
  refine ⟨k.withIndex index m, mergedHole left b none, result,
    ⟨mergedHole_hole _ _ _, rfl, size, ?_, frame⟩,
    sound.next k.heap.endAddress ?_ rfl wf' sound.page sound.least sound.bound⟩
  · change index.entries m = _
    rw [entries]
    rfl
  · change ({ k.heap with index := index } : Heap) = { k.heap with
      index := { k.heap.index with size := index.size }, endAddress := k.heap.endAddress }
    rw [← sized]

theorem frees_end (calm : FreeCalm k pre left b right [])
    (sound : Sound k (around pre left b right [])) (used : b.hole = false)
    (beside : Beside pre left right []) (kmallocInt : Kmalloc) :
    ∃ k' hole, free kmallocInt (b.addr + 12) k = .ok k' ∧
      Frees k pre left b right [] k' hole ∧ Sound k' (pre ++ [hole] ++ []) := by
  have wf : WellFormed Tagged k (around pre left b right []) :=
    sound.tagged (show b ∈ pre ++ left.toList ++ b :: (right.toList ++ []) by simp) used
  have cond : Contractible k pre left b right :=
    ⟨sound.aligned, calm.low rfl, calm.noFooter, calm.noHeader rfl, calm.room⟩
  have least := sound.least
  have bound := sound.bound
  have minimum : heapMinSize = 458752 := rfl
  have mapped : Mapped k k.heap.endAddress :=
    fun a lower upper => sound.mapped a lower (by omega)
  obtain ⟨k', hole, result, free, start, heap, directory, entries, wf', frame⟩ :=
    cond.contracted kmallocInt wf used beside least mapped
  have stop : hole.addr + hole.size = k'.heap.endAddress :=
    (Layout.middle.mp wf'.layout).2.2.2.tiles
  have size : hole.size = freedSize k left b right [] := by
    rw [start, mergedHole_addr, heap] at stop
    exact (Nat.sub_eq_of_eq_add' stop.symm).symm
  refine ⟨k', hole, result, ⟨free, start, size, start ▸ entries, frame⟩, ?_⟩
  rw [List.append_nil]
  exact sound.next _ heap directory wf' (by omega) (by omega) (by omega)

end FreeCalm

theorem free_frees (sound : Sound k (around pre left b right post)) (used : b.hole = false)
    (beside : Beside pre left right post) (calm : FreeCalm k pre left b right post)
    (kmallocInt : Kmalloc) :
    ∃ k' hole, free kmallocInt (b.addr + 12) k = .ok k' ∧
      Frees k pre left b right post k' hole ∧ Sound k' (pre ++ [hole] ++ post) := by
  by_cases last : post = []
  · subst last
    exact calm.frees_end sound used beside kmallocInt
  · exact calm.frees_inner sound used beside last kmallocInt

theorem around_ptrs (used : b.hole = false) (free : hole.hole = true)
    (beside : Beside pre left right post) :
    (blockPtrs (around pre left b right post)).Perm
      ((b.addr + sizeofHeader) :: blockPtrs (pre ++ [hole] ++ post)) := by
  have leftNone : blockPtrs left.toList = [] := by
    cases left with
    | none => rfl
    | some l => exact blockPtrs_cons_hole (beside.leftHole l rfl)
  have rightNone : blockPtrs right.toList = [] := by
    cases right with
    | none => rfl
    | some r => exact blockPtrs_cons_hole (beside.rightHole r rfl)
  simp only [around, blockPtrs_append, blockPtrs_cons_hole free, blockPtrs_cons_block used,
    leftNone, rightNone, blockPtrs_nil, List.append_nil, List.nil_append]
  exact List.perm_middle

-- beside the block itself there are only holes
theorem Beside.mem_others {c : Chunk} (beside : Beside pre left right post)
    (member : c ∈ around pre left b right post) (used : c.hole = false) (apart : c ≠ b) :
    c ∈ pre ++ post := by
  simp only [around, List.mem_append, List.mem_cons, Option.mem_toList] at member ⊢
  rcases member with (before | isLeft) | rfl | isRight | behind
  · exact Or.inl before
  · rw [beside.leftHole c isLeft] at used
    cases used
  · exact absurd rfl apart
  · rw [beside.rightHole c isRight] at used
    cases used
  · exact Or.inr behind

theorem Frees.keeps {tagged : Chunk → Prop} {c : Chunk}
    (frees : Frees k pre left b right post k' hole)
    (wf : WellFormed tagged k (around pre left b right post)) (member : c ∈ pre ++ post) :
    Set.EqOn k'.mem k.mem c.bytes := by
  have at_ := wf.around
  have stop := at_.merged_end
  obtain ⟨lower, leftOf, rightOf, upper⟩ := at_.bounds
  have away : k.heap.startAddress ≤ c.addr ∧ c.addr + c.size ≤ k.heap.endAddress ∧
      (c.addr + c.size ≤ (mergedHole left b right).addr ∨
        (mergedHole left b right).addr + (mergedHole left b right).size ≤ c.addr) := by
    have room := c.room
    rw [mergedHole_addr] at stop ⊢
    cases List.mem_append.mp member with
    | inl before =>
      have := at_.before.bounds before
      omega
    | inr behind =>
      have := at_.after.bounds behind
      omega
  refine frees.frame.mono ?_
  intro x inside changed
  simp only [Chunk.bytes, Set.mem_Ico] at inside
  cases changed with
  | inl inHole =>
    simp only [Chunk.bytes, Set.mem_Ico] at inHole
    omega
  | inr inArray => exact Set.disjoint_left.mp wf.apart inArray ⟨by omega, by omega⟩

end GekonOS
